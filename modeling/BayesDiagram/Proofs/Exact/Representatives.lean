import BayesDiagram.Proofs.Diagram.TableRuns

/-! The cell that answers a put, and how long it does. Matching within a tolerance is not
transitive, so several cells of a bucket may match an item. The one that was linked last answers:
another one takes its place when a new matching cell is put in front of it, or when a retain links
the cells in the order of their numbers. -/
namespace BayesDiagram

theorem find?_eq_some_iff_isGreatest {cells : List Nat} (sorted : cells.Pairwise (· > ·))
    {p : Nat → Bool} {i : Nat} :
    cells.find? p = some i ↔ IsGreatest {j | j ∈ cells ∧ p j = true} i := by
  induction cells with
  | nil => exact ⟨nofun, fun greatest => nomatch greatest.1.1⟩
  | cons first rest ih =>
    obtain ⟨above, sorted⟩ := List.pairwise_cons.mp sorted
    rw [List.find?_cons]
    cases holds : p first with
    | true =>
      have greatest : IsGreatest {j | j ∈ first :: rest ∧ p j = true} first :=
        ⟨⟨.head rest, holds⟩, fun j ⟨member, _⟩ => (List.mem_cons.mp member).elim
          Nat.le_of_eq fun later => Nat.le_of_lt (above j later)⟩
      exact ⟨fun same => Option.some.inj same ▸ greatest,
        fun other => congrArg some (greatest.unique other)⟩
    | false =>
      have same : {j | j ∈ first :: rest ∧ p j = true} = {j | j ∈ rest ∧ p j = true} := by
        ext j
        simp only [Set.mem_ofPred_eq, List.mem_cons]
        refine and_congr_left fun matching => or_iff_right ?_
        rintro rfl
        rw [holds] at matching
        cases matching
      rw [same]
      exact ih sorted

namespace UniqueTable

variable {σ α : Type} [Canonical σ α] {t t' : UniqueTable σ α} {item : α} {i : Nat}

/-- The occupied cells of an item's bucket that match the item. -/
def Answers (t : UniqueTable σ α) (item : α) (i : Nat) : Prop :=
  ∃ kept, t.cell? i = some kept ∧ t.bucket kept = t.bucket item ∧
    Canonical.matching t.tolerance item kept = true

theorem Chain.answers_iff {cells : List Nat} (chain : t.Chain (t.bucket item) cells) :
    t.Answers item i ↔ i ∈ cells ∧ t.holdsMatch item i = true := by
  rw [chain.mem_iff, holdsMatch_iff]
  constructor
  · rintro ⟨kept, stored, same, matching⟩
    exact ⟨⟨kept, stored, same⟩, kept, stored, matching⟩
  · rintro ⟨⟨kept, stored, same⟩, kept', stored', matching⟩
    cases stored.symm.trans stored'
    exact ⟨kept, stored, same, matching⟩

theorem Linked.answers_of_find? (linked : t.Linked) (found : t.find? item = some i) :
    t.Answers item i := by
  obtain ⟨cells, chain⟩ := linked (t.bucket item)
  rw [chain.find?] at found
  exact chain.answers_iff.mpr ⟨List.mem_of_find?_eq_some found, List.find?_some found⟩

/-! ### One step -/

theorem find?_insertNew (sound : t.Sound) (linked : t.Linked) (item other : α) :
    (t.insertNew other).find? item =
      if t.bucket other = t.bucket item ∧ Canonical.matching t.tolerance item other = true then
        some t.nextCell
      else t.find? item := by
  obtain ⟨cells, chain⟩ := linked (t.bucket item)
  have chain' := chain.insertNew sound other
  have same (j : Nat) (member : j ∈ cells) :
      (t.insertNew other).holdsMatch item j = t.holdsMatch item j := by
    obtain ⟨kept, stored, -⟩ := (chain.mem_iff j).mp member
    have old : j ≠ t.nextCell := by
      rintro rfl
      cases stored.symm.trans (nextCell_vacant sound)
    rw [holdsMatch, holdsMatch, cell?_insertNew sound, if_neg old, insertNew_tolerance]
  have new : (t.insertNew other).holdsMatch item t.nextCell =
      Canonical.matching t.tolerance item other := by
    rw [holdsMatch, cell?_insertNew sound, if_pos rfl, insertNew_tolerance, Option.any_some]
  have rest : cells.find? ((t.insertNew other).holdsMatch item) =
      cells.find? (t.holdsMatch item) := by
    rw [← List.head?_filter, ← List.head?_filter, List.filter_congr same]
  rw [← bucket_insertNew t other item] at chain'
  rw [chain'.find?, chain.find?, bucket_insertNew]
  by_cases here : t.bucket other = t.bucket item
  · rw [if_pos here, List.find?_cons, new, rest]
    cases Canonical.matching t.tolerance item other
    · simp
    · simp [here]
  · rw [if_neg here, if_neg fun both => here both.1, rest]

theorem find?_retain (t : UniqueTable σ α) (keep : Nat → Bool) :
    (t.retain keep).2.find? item = some i ↔
      IsGreatest {j | keep j = true ∧ t.Answers item j} i := by
  have chain := retain_chain t keep ((t.retain keep).2.bucket item)
  have sorted : ((t.retain keep).2.indices.filter
      ((t.retain keep).2.inBucket ((t.retain keep).2.bucket item))).reverse.Pairwise (· > ·) :=
    List.pairwise_reverse.mpr (((List.Pairwise.filter _ List.pairwise_lt_range')).filter _)
  have kept : {j | keep j = true ∧ t.Answers item j} = {j | (t.retain keep).2.Answers item j} := by
    ext j
    simp only [Set.mem_ofPred_eq, Answers, cell?_retain, bucket_retain, retain_tolerance]
    cases keep j
    · simp
    · simp
  rw [chain.find?, find?_eq_some_iff_isGreatest sorted, kept]
  simp only [chain.answers_iff]

theorem bucket_put (t : UniqueTable σ α) (item other : α) :
    (t.put item).2.bucket other = t.bucket other := by
  unfold put
  split
  · rfl
  · exact bucket_insertNew t item other

theorem find?_put_self (sound : t.Sound) (linked : t.Linked)
    (matching : Canonical.matching t.tolerance item item = true) :
    (t.put item).2.find? item = some (t.put item).1 := by
  cases found : t.find? item with
  | some i => rw [put, found, found]
  | none =>
    rw [put, found]
    exact (find?_insertNew sound linked item item).trans (if_pos ⟨rfl, matching⟩)

theorem find?_put_iff (sound : t.Sound) (linked : t.Linked) (found : t.find? item = some i)
    (other : α) : (t.put other).2.find? item = some i ↔
      ¬ (t.find? other = none ∧ t.bucket other = t.bucket item ∧
        Canonical.matching t.tolerance item other = true) := by
  cases absent : t.find? other with
  | some j => simp [put, absent, found]
  | none =>
    have old : t.nextCell ≠ i := by
      rintro rfl
      obtain ⟨kept, stored, -⟩ := linked.answers_of_find? found
      cases stored.symm.trans (nextCell_vacant sound)
    rw [put, absent, find?_insertNew sound linked]
    split
    · next ahead => simp [ahead, old]
    · next behind => simp [behind, found]

theorem find?_retain_iff (linked : t.Linked) (found : t.find? item = some i) {keep : Nat → Bool}
    (kept : keep i = true) : (t.retain keep).2.find? item = some i ↔
      ¬ ∃ j, i < j ∧ keep j = true ∧ t.Answers item j := by
  rw [find?_retain]
  constructor
  · rintro ⟨-, last⟩ ⟨j, later, keeps, answers⟩
    exact Nat.not_le_of_lt later (last ⟨keeps, answers⟩)
  · exact fun last => ⟨⟨kept, linked.answers_of_find? found⟩, fun j ⟨keeps, answers⟩ =>
      Nat.le_of_not_lt fun later => last ⟨j, later, keeps, answers⟩⟩

/-! ### Runs -/

theorem Keeping.reachable [Scalar σ] {bits : Nat} {quantum tolerance : σ} (run : Keeping i t t')
    (reachable : Reachable bits quantum tolerance t) : Reachable bits quantum tolerance t' := by
  induction run with
  | refl => exact reachable
  | put _ other ih => exact ih.put other
  | retain _ _ ih => exact ih.retain _

theorem Keeping.answers (run : Keeping i t t') (sound : t.Sound) (answers : t.Answers item i) :
    t'.Answers item i := by
  induction run with
  | refl => exact answers
  | put earlier other ih =>
    obtain ⟨kept, stored, same, matching⟩ := ih
    refine ⟨kept, cell?_put (earlier.sound sound) other stored, ?_, ?_⟩
    · rwa [bucket_put, bucket_put]
    · rwa [put_tolerance]
  | retain _ kept ih =>
    obtain ⟨item', stored, same, matching⟩ := ih
    refine ⟨item', ?_, ?_, ?_⟩
    · rwa [cell?_retain, if_pos kept]
    · rwa [bucket_retain, bucket_retain]
    · rwa [retain_tolerance]

theorem Keeping.linked (run : Keeping i t t') (sound : t.Sound) (linked : t.Linked) :
    t'.Linked := by
  induction run with
  | refl => exact linked
  | put earlier item ih => exact put_linked (earlier.sound sound) ih item
  | retain _ _ _ => exact retain_linked _ _

theorem Linked.put_of_answers (linked : t.Linked) (answers : t.Answers item i) :
    ∃ j, t.put item = (j, t) ∧ t.find? item = some j ∧ t.Answers item j := by
  obtain ⟨j, found⟩ := Option.isSome_iff_exists.mp
    ((linked.find?_isSome item).mpr ⟨i, answers⟩)
  exact ⟨j, by rw [put, found], found, linked.answers_of_find? found⟩

/-- The runs in which no cell that matches an item gets in front of the cell `i`: no retain drops
the cell or keeps a later one that matches, and no put fills a new one that matches. -/
inductive Undisturbed (item : α) (i : Nat) (t : UniqueTable σ α) : UniqueTable σ α → Prop where
  | refl : Undisturbed item i t t
  | put {t' : UniqueTable σ α} (earlier : Undisturbed item i t t') {other : α}
    (apart : ¬ (t'.find? other = none ∧ t'.bucket other = t'.bucket item ∧
      Canonical.matching t'.tolerance item other = true)) :
    Undisturbed item i t (t'.put other).2
  | retain {t' : UniqueTable σ α} (earlier : Undisturbed item i t t') {keep : Nat → Bool}
    (kept : keep i = true) (last : ¬ ∃ j, i < j ∧ keep j = true ∧ t'.Answers item j) :
    Undisturbed item i t (t'.retain keep).2

theorem Undisturbed.keeping (run : Undisturbed item i t t') : Keeping i t t' := by
  induction run with
  | refl => exact .refl
  | put _ _ ih => exact .put ih _
  | retain _ kept _ ih => exact .retain ih kept

theorem Undisturbed.find? (run : Undisturbed item i t t') (sound : t.Sound) (linked : t.Linked)
    (found : t.find? item = some i) : t'.find? item = some i := by
  induction run with
  | refl => exact found
  | put earlier apart ih =>
    have run := earlier.keeping
    exact (find?_put_iff (run.sound sound) (run.linked sound linked) ih _).mpr apart
  | retain earlier kept last ih =>
    exact (find?_retain_iff (earlier.keeping.linked sound linked) ih kept).mpr last

theorem Invariant.answers_unique (invariant : t.Invariant)
    (transitive : ∀ v w, Canonical.matching t.tolerance item v = true →
      Canonical.matching t.tolerance item w = true → Canonical.matching t.tolerance v w = true)
    {j : Nat} (left : t.Answers item i) (right : t.Answers item j) : i = j := by
  obtain ⟨v, stored, same, matching⟩ := left
  obtain ⟨w, stored', same', matching'⟩ := right
  exact invariant.apart i j v w stored stored' (same.trans same'.symm)
    (transitive v w matching matching')

/-! ### Edges over exact numbers -/

section Edges

variable {bits : Nat} {quantum tolerance : Rat} {t t' : UniqueTable Rat (Edge Rat)}

theorem Reachable.find?_put_self (reachable : Reachable bits quantum tolerance t)
    (tolerable : 0 ≤ tolerance) (e : Edge Rat) :
    (t.put e).2.find? e = some (t.put e).1 := by
  have invariant := reachable.invariant (Edge.near_comm tolerance)
  refine UniqueTable.find?_put_self invariant.sound invariant.linked ?_
  rw [reachable.tolerance_eq]
  exact Edge.near_self tolerable e

/-- After a put of an edge has answered a cell, the next puts of the edge answer the cell as long as
no matching cell gets in front of it, and exactly the steps that put one there change the answer.
While the cell is kept, the puts answer a cell that matches; without tolerance, the cell itself. -/
theorem put_of_undisturbed (tolerable : 0 ≤ tolerance)
    (reachable : Reachable bits quantum tolerance t) (e : Edge Rat) {i : Nat}
    (answer : (t.put e).1 = i) :
    (∀ t', Undisturbed e i (t.put e).2 t' → t'.put e = (i, t') ∧
      (∀ f, ((t'.put f).2.put e).1 ≠ i ↔
        t'.find? f = none ∧ t'.bucket f = t'.bucket e ∧ e.near tolerance f = true) ∧
      (∀ keep : Nat → Bool, keep i = true → (((t'.retain keep).2.put e).1 ≠ i ↔
        ∃ j, i < j ∧ keep j = true ∧ t'.Answers e j))) ∧
    (∀ t', Keeping i (t.put e).2 t' → ∃ j, t'.put e = (j, t') ∧ t'.Answers e j) ∧
    (tolerance = 0 → ∀ t', Keeping i (t.put e).2 t' → t'.put e = (i, t')) := by
  subst answer
  have next : Reachable bits quantum tolerance (t.put e).2 := reachable.put e
  have invariant := next.invariant (Edge.near_comm tolerance)
  have found := reachable.find?_put_self tolerable e
  have answers := invariant.linked.answers_of_find? found
  have again {t' : UniqueTable Rat (Edge Rat)} (run : Keeping (t.put e).1 (t.put e).2 t') :
      ∃ j, t'.put e = (j, t') ∧ t'.find? e = some j ∧ t'.Answers e j :=
    (run.linked invariant.sound invariant.linked).put_of_answers
      (run.answers invariant.sound answers)
  have answer_iff {t' : UniqueTable Rat (Edge Rat)}
      (run : Keeping (t.put e).1 (t.put e).2 t') :
      (t'.put e).1 = (t.put e).1 ↔ t'.find? e = some (t.put e).1 := by
    obtain ⟨j, put, found, -⟩ := again run
    rw [put, found, Option.some.injEq]
  refine ⟨fun t' run => ?_, fun t' run => ?_, fun exact t' run => ?_⟩
  · have same := run.find? invariant.sound invariant.linked found
    have sound := run.keeping.sound invariant.sound
    have linked := run.keeping.linked invariant.sound invariant.linked
    refine ⟨by rw [put, same], fun f => ?_, fun keep kept => ?_⟩
    · rw [Ne, answer_iff (.put run.keeping f), find?_put_iff sound linked same, not_not,
        (run.keeping.reachable next).tolerance_eq]
      rfl
    · rw [Ne, answer_iff (.retain run.keeping kept), find?_retain_iff linked same kept, not_not]
  · obtain ⟨j, put, -, other⟩ := again run
    exact ⟨j, put, other⟩
  · have after := (run.reachable next).invariant (Edge.near_comm tolerance)
    obtain ⟨j, put, -, other⟩ := again run
    rw [put, after.answers_unique (fun v w => ?_) (run.answers invariant.sound answers) other]
    rw [(run.reachable next).tolerance_eq, exact]
    exact Edge.near_of_near_of_near

theorem put_of_undisturbed_reusing :
    let e : Edge Rat := .constant 1
    let kept := (reusing.put e).2.retain (· != 1)
    ((kept.2.put (.constant 7)).2.put e).1 = (reusing.put e).1 := by
  intro e kept
  have last : ¬ ∃ j, 2 < j ∧ (j != 1) = true ∧ (reusing.put e).2.Answers e j := by
    rintro ⟨j, later, -, item, stored, -⟩
    obtain ⟨place, rfl⟩ := Nat.exists_eq_add_of_lt later
    have inside := lt_size_of_cell? stored
    have size : (reusing.put e).2.cells.size = 2 := by decide +kernel
    omega
  have differs : e.near kept.2.tolerance (.constant 7) = false := by decide +kernel
  have first : (reusing.put e).1 = 2 := by decide +kernel
  have retained : Undisturbed e 2 (reusing.put e).2 kept.2 := .retain .refl rfl last
  have run : Undisturbed e 2 (reusing.put e).2 (kept.2.put (.constant 7)).2 :=
    .put retained fun both => Bool.false_ne_true (differs.symm.trans both.2.2)
  have stays := (put_of_undisturbed (by decide +kernel) reachable_reusing e first).1 _ run
  rw [stays.1, first]

/-- An edge that is put between two others, near both of them, is answered first with the cell of
the one and then with the cell of the other. -/
theorem put_answer_changes : ¬ ∀ (bits : Nat) (quantum tolerance : Rat)
    (t t' : UniqueTable Rat (Edge Rat)) (e : Edge Rat), 0 ≤ tolerance →
    Reachable bits quantum tolerance t → Keeping (t.put e).1 (t.put e).2 t' →
    (t'.put e).1 = (t.put e).1 := by
  intro stable
  let empty : UniqueTable Rat (Edge Rat) := ⟨16, 1 / 1000000, 1 / 10000000000, #[], ∅, 1, 0⟩
  let t := (empty.put (.constant 0)).2
  let e : Edge Rat := .constant (8 / 100000000000)
  let t' := ((t.put e).2.put (.constant (16 / 100000000000))).2
  have created : create 16 (1 / 1000000) (1 / 10000000000) = .ok empty :=
    (if_neg (by decide)).trans (if_pos (by decide +kernel))
  have same := stable 16 (1 / 1000000) (1 / 10000000000) t t' e (by decide +kernel)
    (.put (.created created) _) (.put .refl _)
  have first : (t.put e).1 = 1 := by decide +kernel
  have second : (t'.put e).1 = 2 := by decide +kernel
  rw [first, second] at same
  cases same

end Edges

end UniqueTable

end BayesDiagram
