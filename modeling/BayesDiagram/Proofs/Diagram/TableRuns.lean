import BayesDiagram.Proofs.Diagram.Chains
import BayesDiagram.Proofs.Exact.Nearness
import Mathlib.Data.Set.Card
import Mathlib.Order.Bounds.Basic

/-! Runs of a unique table. Whatever is put and retained, the cells, the chains, the counter of the
occupied cells and the bound below which no cell is vacant stay consistent. -/
namespace BayesDiagram.UniqueTable

variable {σ α : Type} [Canonical σ α] {t t' : UniqueTable σ α} {i : Nat}

inductive Reachable [Scalar σ] (bits : Nat) (quantum tolerance : σ) : UniqueTable σ α → Prop where
  | created {t : UniqueTable σ α} (created : create bits quantum tolerance = .ok t) :
    Reachable bits quantum tolerance t
  | put {t : UniqueTable σ α} (earlier : Reachable bits quantum tolerance t) (item : α) :
    Reachable bits quantum tolerance (t.put item).2
  | retain {t : UniqueTable σ α} (earlier : Reachable bits quantum tolerance t)
    (keep : Nat → Bool) : Reachable bits quantum tolerance (t.retain keep).2

/-- The tables that puts and retains lead to while no retain drops the cell `i`. -/
inductive Keeping (i : Nat) (t : UniqueTable σ α) : UniqueTable σ α → Prop where
  | refl : Keeping i t t
  | put {t' : UniqueTable σ α} (earlier : Keeping i t t') (item : α) : Keeping i t (t'.put item).2
  | retain {t' : UniqueTable σ α} (earlier : Keeping i t t') {keep : Nat → Bool}
    (kept : keep i = true) : Keeping i t (t'.retain keep).2

theorem Keeping.sound (run : Keeping i t t') (sound : t.Sound) : t'.Sound := by
  induction run with
  | refl => exact sound
  | put _ item ih => exact put_sound ih item
  | retain _ _ ih => exact retain_sound ih _

theorem cell?_put (sound : t.Sound) (item : α) {kept : α} (stored : t.cell? i = some kept) :
    (t.put item).2.cell? i = some kept := by
  rcases put_cases sound item with ⟨j, other, put, -⟩ | ⟨j, t', put, vacant, -, -, cells⟩
  · rwa [put]
  · rw [put, cells, if_neg fun same => by rw [same, vacant] at stored; cases stored]
    exact stored

theorem Keeping.cell? (run : Keeping i t t') (sound : t.Sound) {item : α}
    (stored : t.cell? i = some item) : t'.cell? i = some item := by
  induction run with
  | refl => exact stored
  | put earlier other ih => exact cell?_put (earlier.sound sound) other ih
  | retain _ kept ih => rw [cell?_retain, if_pos kept, ih]

/-! ### The fields agree -/

structure Invariant (t : UniqueTable σ α) : Prop where
  sound : t.Sound
  linked : t.Linked
  size_eq : t.size = t.indices.length
  occupied_below : ∀ i, 1 ≤ i → i < t.firstFree → t.isOccupied i = true
  apart : ∀ i j v w, t.cell? i = some v → t.cell? j = some w → t.bucket v = t.bucket w →
    Canonical.matching t.tolerance v w = true → i = j

theorem create_invariant [Scalar σ] {bits : Nat} {quantum tolerance : σ}
    (created : create bits quantum tolerance = .ok t) : t.Invariant := by
  obtain ⟨sound, -, vacant⟩ := create_sound created
  refine ⟨sound, create_linked created, ?_, fun i positive below => ?_, fun i j v w stored => ?_⟩
  · rw [create_eq created]
    rfl
  · rw [create_eq created] at below
    exact absurd positive (Nat.not_le.mpr below)
  · rw [vacant] at stored
    cases stored

omit [Canonical σ α] in
theorem occupied_of_lt_vacantFrom (t : UniqueTable σ α) {start count : Nat} (from_start : start ≤ i)
    (below : i < t.vacantFrom start count) : t.isOccupied i = true := by
  induction count generalizing start with
  | zero =>
    rw [vacantFrom] at below
    omega
  | succ count ih =>
    rw [vacantFrom] at below
    split at below
    · next occupied =>
      rcases Nat.eq_or_lt_of_le from_start with rfl | later
      · exact occupied
      · exact ih later below
    · omega

section Invariant

variable (invariant : t.Invariant)
include invariant

theorem Invariant.occupied_below_next (positive : 1 ≤ i) (below : i < t.nextCell) :
    t.isOccupied i = true := by
  rcases Nat.lt_or_ge i t.firstFree with first | later
  · exact invariant.occupied_below i positive first
  · exact t.occupied_of_lt_vacantFrom later below

theorem Invariant.nextCell_isLeast :
    IsLeast {i | 1 ≤ i ∧ t.isOccupied i = false} t.nextCell := by
  refine ⟨⟨(nextCell_bounds invariant.sound).1, ?_⟩, fun i vacant => ?_⟩
  · rw [isOccupied, nextCell_vacant invariant.sound, Option.isSome_none]
  · refine Nat.le_of_not_lt fun below => ?_
    have occupied := invariant.occupied_below_next vacant.1 below
    rw [vacant.2] at occupied
    cases occupied

omit invariant in
theorem indices_insertNew_perm (sound : t.Sound) (item : α) :
    (t.insertNew item).indices.Perm (t.nextCell :: t.indices) := by
  have vacant := nextCell_vacant sound
  have new : t.nextCell ∉ t.indices := by
    rw [mem_indices, vacant]
    exact Bool.false_ne_true
  refine (List.perm_ext_iff_of_nodup (nodup_indices _)
    (List.nodup_cons.mpr ⟨new, nodup_indices t⟩)).mpr fun i => ?_
  rw [List.mem_cons, mem_indices, mem_indices, cell?_insertNew sound]
  split
  · next here => simp [here]
  · next there => simp [there]

theorem Invariant.insertNew {item : α} (absent : t.find? item = none)
    (symmetric : ∀ v w : α,
      Canonical.matching t.tolerance v w = Canonical.matching t.tolerance w v) :
    (t.insertNew item).Invariant := by
  have sound := invariant.sound
  have differs := invariant.linked.find?_eq_none.mp absent
  have indices := indices_insertNew_perm sound item
  obtain ⟨cells, heads, shape, -⟩ := t.insertNew_shape item
  refine ⟨insertNew_sound sound item, insertNew_linked sound invariant.linked item, ?_,
    fun i positive below => ?_, fun i j v w => ?_⟩
  · rw [indices.length_eq, List.length_cons, ← invariant.size_eq, shape]
  · rw [shape] at below
    rw [isOccupied, ← mem_indices, indices.mem_iff, List.mem_cons, mem_indices]
    rcases Nat.eq_or_lt_of_le (Nat.le_of_lt_succ below) with here | before
    · exact .inl here
    · exact .inr (invariant.occupied_below_next positive before)
  · rw [cell?_insertNew sound, cell?_insertNew sound, bucket_insertNew, bucket_insertNew,
      insertNew_tolerance]
    split <;> split
    · next here there => exact fun _ _ _ _ => here.trans there.symm
    · rintro ⟨rfl⟩ stored same matching
      rw [differs j w stored same.symm] at matching
      cases matching
    · rintro stored ⟨rfl⟩ same matching
      rw [symmetric, differs i v stored same] at matching
      cases matching
    · exact invariant.apart i j v w

theorem Invariant.put (item : α) (symmetric : ∀ v w : α,
      Canonical.matching t.tolerance v w = Canonical.matching t.tolerance w v) :
    (t.put item).2.Invariant := by
  cases found : t.find? item with
  | some i => rwa [UniqueTable.put, found]
  | none =>
    rw [UniqueTable.put, found]
    exact invariant.insertNew found symmetric

end Invariant

private theorem lt_foldl_min {cells : List Nat} {start : Nat} :
    i < cells.foldl min start ↔ i < start ∧ ∀ j ∈ cells, i < j := by
  induction cells generalizing start with
  | nil => simp
  | cons j cells ih => simp [ih, and_assoc]

theorem Invariant.retain (invariant : t.Invariant) (keep : Nat → Bool) :
    (t.retain keep).2.Invariant := by
  obtain ⟨cells, heads, shape, -⟩ := t.retain_shape keep
  refine ⟨retain_sound invariant.sound keep, retain_linked t keep, ?_, fun i positive below => ?_,
    fun i j v w => ?_⟩
  · have split := List.length_eq_length_filter_add (l := t.indices) keep
    have dropped : (t.dropped keep).length = (t.indices.filter fun i => !keep i).length := rfl
    have size : (t.retain keep).2.size = t.size - (t.dropped keep).length := by rw [shape]; rfl
    rw [size, indices_retain, invariant.size_eq]
    omega
  · have free : i < (t.dropped keep).foldl min t.firstFree := by rw [shape] at below; exact below
    obtain ⟨first, before⟩ := lt_foldl_min.mp free
    have occupied := invariant.occupied_below i positive first
    have kept : keep i = true := by
      by_contra drops
      have listed : i ∈ t.dropped keep :=
        List.mem_filter.mpr ⟨mem_indices.mpr occupied, by simpa using drops⟩
      exact Nat.lt_irrefl i (before i listed)
    rwa [isOccupied, cell?_retain, if_pos kept]
  · rw [cell?_retain, cell?_retain, bucket_retain, bucket_retain, retain_tolerance]
    split <;> split
    · exact invariant.apart i j v w
    · intro _ stored
      cases stored
    · intro stored
      cases stored
    · intro stored
      cases stored

theorem Reachable.tolerance_eq [Scalar σ] {bits : Nat} {quantum tolerance : σ}
    (reachable : Reachable bits quantum tolerance t) : t.tolerance = tolerance := by
  induction reachable with
  | created created => exact (create_sound created).2.1
  | put _ item ih => exact (put_tolerance _ item).trans ih
  | retain _ keep ih => exact (retain_tolerance _ keep).trans ih

theorem Reachable.invariant [Scalar σ] {bits : Nat} {quantum tolerance : σ}
    (reachable : Reachable bits quantum tolerance t)
    (symmetric : ∀ v w : α,
      Canonical.matching tolerance v w = Canonical.matching tolerance w v) : t.Invariant := by
  induction reachable with
  | created created => exact create_invariant created
  | put earlier item ih => exact ih.put item (earlier.tolerance_eq ▸ symmetric)
  | retain _ keep ih => exact ih.retain keep

/-! ### What holds between the steps of a run -/

structure Consistent (t : UniqueTable σ α) : Prop where
  /-- The chain of a bucket is one list without repetitions: the occupied cells of the bucket. -/
  chains : ∀ bucket, ∃! cells, t.Chain bucket cells
  /-- A search that may follow more links than there are cells finds nothing more. -/
  search_ends : ∀ item steps, t.cells.size ≤ steps →
    t.search item steps (t.head (t.bucket item)) = t.find? item
  size_eq : t.size = {i | t.isOccupied i = true}.ncard ∧ t.size = t.indices.length
  occupied_below : ∀ i, 1 ≤ i → i < t.firstFree → t.isOccupied i = true
  put_lowest : ∀ item, t.find? item = none →
    IsLeast {i | 1 ≤ i ∧ t.isOccupied i = false} (t.put item).1 ∧
      (t.put item).2.cell? (t.put item).1 = some item
  /-- An occupied cell keeps its item as long as no retain drops the cell. -/
  keeps : ∀ i item t', t.cell? i = some item → Keeping i t t' → t'.cell? i = some item
  drops : ∀ keep i, keep i = false → (t.retain keep).2.isOccupied i = false
  apart : ∀ i j v w, t.cell? i = some v → t.cell? j = some w → t.bucket v = t.bucket w →
    Canonical.matching t.tolerance v w = true → i = j
  find?_iff : ∀ item, (t.find? item).isSome = true ↔
    ∃ i kept, t.cell? i = some kept ∧ t.bucket kept = t.bucket item ∧
      Canonical.matching t.tolerance item kept = true

omit [Canonical σ α] in
theorem ncard_occupied (t : UniqueTable σ α) :
    {i | t.isOccupied i = true}.ncard = t.indices.length := by
  have listed : {i | t.isOccupied i = true} = (t.indices.toFinset : Set Nat) := by
    ext i
    rw [List.coe_toFinset, Set.mem_ofPred_eq, Set.mem_ofPred_eq, mem_indices, isOccupied]
  rw [listed, Set.ncard_coe_finset, List.toFinset_card_of_nodup (nodup_indices t)]

theorem Linked.find?_isSome (linked : t.Linked) (item : α) :
    (t.find? item).isSome = true ↔ ∃ i kept, t.cell? i = some kept ∧
      t.bucket kept = t.bucket item ∧ Canonical.matching t.tolerance item kept = true := by
  rw [← Option.ne_none_iff_isSome, Ne, linked.find?_eq_none]
  push Not
  simp only [ne_eq, Bool.not_eq_false]

/-- The table is consistent at every point of every run of puts and retains. -/
theorem consistent_of_reachable [Scalar σ] {bits : Nat} {quantum tolerance : σ}
    (symmetric : ∀ v w : α,
      Canonical.matching tolerance v w = Canonical.matching tolerance w v)
    (reachable : Reachable bits quantum tolerance t) : t.Consistent := by
  have invariant := reachable.invariant symmetric
  exact {
    chains := fun bucket =>
      let ⟨cells, chain⟩ := invariant.linked bucket
      ⟨cells, chain, fun _ other => other.path.unique chain.path⟩
    search_ends := fun item steps enough => by
      obtain ⟨cells, chain⟩ := invariant.linked (t.bucket item)
      rw [chain.find?]
      exact chain.path.search item ((chain.path.length_le chain.nodup).trans enough)
    size_eq := ⟨invariant.size_eq.trans (ncard_occupied t).symm, invariant.size_eq⟩
    occupied_below := invariant.occupied_below
    put_lowest := fun item absent => by
      rw [put, absent]
      exact ⟨invariant.nextCell_isLeast,
        (cell?_insertNew invariant.sound item _).trans (if_pos rfl)⟩
    keeps := fun i item t' stored run => run.cell? invariant.sound stored
    drops := fun keep i drop => by
      rw [isOccupied, cell?_retain, if_neg (Bool.eq_false_iff.mp drop), Option.isSome_none]
    apart := invariant.apart
    find?_iff := invariant.linked.find?_isSome }

def reusing : UniqueTable Rat (Edge Rat) :=
  let empty : UniqueTable Rat (Edge Rat) := ⟨4, 1 / 1000000, 1 / 1000000000, #[], ∅, 1, 0⟩
  let two := ((empty.put (.constant 0)).2.put (.constant 1)).2
  ((two.retain (· != 1)).2.put (.constant 2)).2

theorem reachable_reusing : Reachable 4 (1 / 1000000) (1 / 1000000000) reusing := by
  have empty : create 4 (1 / 1000000) (1 / 1000000000) =
      .ok (⟨4, 1 / 1000000, 1 / 1000000000, #[], ∅, 1, 0⟩ : UniqueTable Rat (Edge Rat)) :=
    (if_neg (by decide)).trans (if_pos (by decide +kernel))
  exact .put (.retain (.put (.put (.created empty) _) _) _) _

theorem consistent_reusing : reusing.Consistent ∧ reusing.indices = [1, 2] ∧ reusing.size = 2 ∧
    reusing.find? (.constant 2) = some 1 ∧ reusing.find? (.constant 0) = none :=
  ⟨consistent_of_reachable (Edge.near_comm (1 / 1000000000)) reachable_reusing, by decide +kernel,
    by decide +kernel, by decide +kernel, by decide +kernel⟩

end BayesDiagram.UniqueTable
