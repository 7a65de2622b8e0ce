import BayesDiagram.Proofs.Diagram.Cells
import Mathlib.Data.List.Nodup
import Mathlib.Data.List.Perm.Subperm

/-! The chains of a unique table. The links from the head of a bucket lead once to each occupied
cell whose item belongs there, and end. So a search ends, it compares an item with everything that
could equal it, and no item is put in a second cell. -/
namespace BayesDiagram.UniqueTable

variable {σ α : Type} {t t' : UniqueTable σ α} {bucket start : Nat} {cells : List Nat}

def Path (t : UniqueTable σ α) : Nat → List Nat → Prop
  | start, [] => start = 0
  | start, i :: rest => start = i ∧ ∃ cell, t.slot? i = some cell ∧ t.Path cell.next rest

theorem Path.occupied (path : t.Path start cells) {i : Nat} (member : i ∈ cells) :
    ∃ cell, t.slot? i = some cell := by
  induction cells generalizing start with
  | nil => cases member
  | cons first rest ih =>
    obtain ⟨rfl, cell, occupied, path⟩ := path
    rcases List.mem_cons.mp member with rfl | later
    · exact ⟨cell, occupied⟩
    · exact ih path later

theorem Path.congr (path : t.Path start cells)
    (same : ∀ i ∈ cells, t'.slot? i = t.slot? i) : t'.Path start cells := by
  induction cells generalizing start with
  | nil => exact path
  | cons first rest ih =>
    obtain ⟨rfl, cell, occupied, path⟩ := path
    exact ⟨rfl, cell, (same start (.head rest)).trans occupied,
      ih path fun j member => same j (.tail start member)⟩

theorem Path.unique {cells' : List Nat} (path : t.Path start cells)
    (path' : t.Path start cells') : cells = cells' := by
  induction cells generalizing start cells' with
  | nil =>
    cases cells' with
    | nil => rfl
    | cons first rest =>
      obtain ⟨rfl, cell, occupied, -⟩ := path'
      rw [show start = 0 from path] at occupied
      cases occupied
  | cons first rest ih =>
    obtain ⟨rfl, cell, occupied, path⟩ := path
    cases cells' with
    | nil =>
      rw [show start = 0 from path'] at occupied
      cases occupied
    | cons first' rest' =>
      obtain ⟨rfl, cell', occupied', path'⟩ := path'
      cases occupied.symm.trans occupied'
      rw [ih path path']

theorem Path.length_le (path : t.Path start cells) (nodup : cells.Nodup) :
    cells.length ≤ t.cells.size := by
  have inside : cells ⊆ List.range' 1 t.cells.size := fun i member => by
    obtain ⟨cell, occupied⟩ := path.occupied member
    cases i with
    | zero => cases occupied
    | succ place =>
      have := lt_size_of_slot? occupied
      rw [List.mem_range'_1]
      omega
  simpa using (nodup.subperm inside).length_le

def Distinct (t : UniqueTable σ α) : Prop :=
  ∀ i j item, t.cell? i = some item → t.cell? j = some item → i = j

theorem create_distinct [Scalar σ] {bits : Nat} {quantum tolerance : σ}
    (created : create bits quantum tolerance = .ok t) : t.Distinct := by
  obtain ⟨-, -, vacant⟩ := create_sound created
  intro i j item stored
  rw [vacant] at stored
  cases stored

variable [Canonical σ α]

def holdsMatch (t : UniqueTable σ α) (item : α) (i : Nat) : Bool :=
  (t.cell? i).any (Canonical.matching t.tolerance item)

theorem holdsMatch_iff {item : α} {i : Nat} : t.holdsMatch item i = true ↔
    ∃ kept, t.cell? i = some kept ∧ Canonical.matching t.tolerance item kept = true := by
  rw [holdsMatch, Option.any_eq_true]

def inBucket (t : UniqueTable σ α) (bucket i : Nat) : Bool :=
  (t.cell? i).any fun item => t.bucket item == bucket

theorem inBucket_iff {i : Nat} : t.inBucket bucket i = true ↔
    ∃ item, t.cell? i = some item ∧ t.bucket item = bucket := by
  simp only [inBucket, Option.any_eq_true, beq_iff_eq]

theorem Path.search (path : t.Path start cells) (item : α) {steps : Nat}
    (enough : cells.length ≤ steps) :
    t.search item steps start = cells.find? (t.holdsMatch item) := by
  induction cells generalizing start steps with
  | nil =>
    rw [show start = 0 from path]
    cases steps with
    | zero => rfl
    | succ steps => rfl
  | cons first rest ih =>
    obtain ⟨rfl, cell, occupied, path⟩ := path
    cases steps with
    | zero => cases enough
    | succ steps =>
      have holds : t.holdsMatch item start = Canonical.matching t.tolerance item cell.item := by
        rw [holdsMatch, cell?, occupied]
        rfl
      simp only [UniqueTable.search, occupied, List.find?_cons, holds]
      cases Canonical.matching t.tolerance item cell.item with
      | true => rfl
      | false => exact ih path (Nat.le_of_succ_le_succ enough)

/-- The links of a bucket lead along these cells, which are the occupied cells of the bucket, each
listed once. -/
structure Chain (t : UniqueTable σ α) (bucket : Nat) (cells : List Nat) : Prop where
  path : t.Path (t.head bucket) cells
  nodup : cells.Nodup
  mem_iff : ∀ i, i ∈ cells ↔ ∃ item, t.cell? i = some item ∧ t.bucket item = bucket

def Linked (t : UniqueTable σ α) : Prop :=
  ∀ bucket, ∃ cells, t.Chain bucket cells

theorem Chain.find? {item : α} (chain : t.Chain (t.bucket item) cells) :
    t.find? item = cells.find? (t.holdsMatch item) :=
  chain.path.search item (chain.path.length_le chain.nodup)

theorem Linked.find?_eq_none (linked : t.Linked) {item : α} : t.find? item = none ↔
    ∀ i kept, t.cell? i = some kept → t.bucket kept = t.bucket item →
      Canonical.matching t.tolerance item kept = false := by
  obtain ⟨cells, chain⟩ := linked (t.bucket item)
  rw [chain.find?, List.find?_eq_none]
  constructor
  · intro differs i kept stored same
    have := differs i ((chain.mem_iff i).mpr ⟨kept, stored, same⟩)
    exact Bool.eq_false_iff.mpr fun matching => this (holdsMatch_iff.mpr ⟨kept, stored, matching⟩)
  · intro differs i member holds
    obtain ⟨kept, stored, same⟩ := (chain.mem_iff i).mp member
    obtain ⟨kept', stored', matching⟩ := holdsMatch_iff.mp holds
    cases stored.symm.trans stored'
    rw [differs i kept stored same] at matching
    cases matching

theorem create_linked [Scalar σ] {bits : Nat} {quantum tolerance : σ}
    (created : create bits quantum tolerance = .ok t) : t.Linked := by
  obtain ⟨-, -, vacant⟩ := create_sound created
  refine fun bucket => ⟨[], ?_, .nil, ?_⟩
  · cases create_eq created
    exact Std.TreeMap.getD_emptyc
  · simp [vacant]

/-! ### Linking -/

@[simp] theorem bucket_link (t : UniqueTable σ α) (i : Nat) (item : α) :
    (t.link i).bucket item = t.bucket item := by
  obtain ⟨cells, heads, linked, -⟩ := t.link_eq i
  rw [linked]
  rfl

@[simp] theorem inBucket_link (t : UniqueTable σ α) (i : Nat) :
    (t.link i).inBucket = t.inBucket := by
  funext bucket j
  simp only [inBucket, cell?_link, bucket_link]

@[simp] theorem bucket_foldl_link (t : UniqueTable σ α) (kept : List Nat) (item : α) :
    (kept.foldl link t).bucket item = t.bucket item := by
  induction kept generalizing t with
  | nil => rfl
  | cons i kept ih => rw [List.foldl_cons, ih, bucket_link]

theorem Path.link (path : t.Path (t.head bucket) cells) {i : Nat} (occupied : t.isOccupied i)
    (fresh : i ∉ cells) :
    (t.link i).Path ((t.link i).head bucket)
      (if t.inBucket bucket i then i :: cells else cells) := by
  obtain ⟨item, stored⟩ := Option.isSome_iff_exists.mp occupied
  obtain ⟨next, found⟩ := cell?_eq_some.mp stored
  obtain ⟨entries, heads⟩ := link_of_slot? found
  have kept : (t.link i).Path (t.head bucket) cells := path.congr fun j member => by
    rw [entries, if_neg (ne_of_mem_of_not_mem member fresh)]
  have belongs : t.inBucket bucket i = (t.bucket item == bucket) := by
    rw [inBucket, stored, Option.any_some]
  rw [heads, belongs]
  by_cases same : t.bucket item = bucket
  · rw [if_pos same.symm, if_pos (beq_iff_eq.mpr same)]
    refine ⟨rfl, _, (entries i).trans (if_pos rfl), ?_⟩
    rw [same]
    exact kept
  · rw [if_neg (Ne.symm same), if_neg fun equal => same (beq_iff_eq.mp equal)]
    exact kept

theorem Path.foldl_link (path : t.Path (t.head bucket) cells) {kept : List Nat}
    (nodup : kept.Nodup) (occupied : ∀ i ∈ kept, t.isOccupied i)
    (fresh : ∀ i ∈ kept, i ∉ cells) :
    (kept.foldl UniqueTable.link t).Path ((kept.foldl UniqueTable.link t).head bucket)
      ((kept.filter (t.inBucket bucket)).reverse ++ cells) := by
  induction kept generalizing t cells with
  | nil => exact path
  | cons i kept ih =>
    obtain ⟨new, nodup⟩ := List.nodup_cons.mp nodup
    have step := ih (path.link (occupied i (.head kept)) (fresh i (.head kept))) nodup
      (fun j member => by
        rw [isOccupied, cell?_link]
        exact occupied j (.tail i member))
      (fun j member listed => by
        have old : j ∉ cells := fresh j (.tail i member)
        split at listed
        · rcases List.mem_cons.mp listed with rfl | listed
          · exact new member
          · exact old listed
        · exact old listed)
    rw [List.foldl_cons, List.filter_cons]
    simp only [inBucket_link] at step
    split at step
    · next belongs =>
      rw [if_pos belongs, List.reverse_cons, List.append_assoc]
      exact step
    · next elsewhere =>
      rw [if_neg elsewhere]
      exact step

/-! ### Putting -/

theorem bucket_insertNew (t : UniqueTable σ α) (item other : α) :
    (t.insertNew item).bucket other = t.bucket other :=
  bucket_link _ _ other

theorem Chain.insertNew (sound : t.Sound) (chain : t.Chain bucket cells) (item : α) :
    (t.insertNew item).Chain bucket
      (if t.bucket item = bucket then t.nextCell :: cells else cells) := by
  obtain ⟨positive, bound⟩ := nextCell_bounds sound
  have vacant := nextCell_vacant sound
  have unlisted : t.nextCell ∉ cells := fun member => by
    obtain ⟨item, stored, -⟩ := (chain.mem_iff _).mp member
    cases vacant.symm.trans stored
  let placed := { t.place t.nextCell item with firstFree := t.nextCell + 1, size := t.size + 1 }
  have entries (i : Nat) :
      placed.slot? i = if i = t.nextCell then some ⟨item, 0⟩ else t.slot? i :=
    slot?_place t positive bound item i
  have here : placed.cell? t.nextCell = some item := by
    rw [cell?, entries, if_pos rfl]
    rfl
  have path : placed.Path (placed.head bucket) cells := chain.path.congr fun i member => by
    rw [entries, if_neg (ne_of_mem_of_not_mem member unlisted)]
  have belongs : placed.inBucket bucket t.nextCell = true ↔ t.bucket item = bucket := by
    rw [inBucket, here, Option.any_some, beq_iff_eq]
    rfl
  have linked := path.link (i := t.nextCell) (by rw [isOccupied, here]; rfl) unlisted
  simp only [belongs] at linked
  refine ⟨linked, ?_, fun i => ?_⟩
  · split
    · exact List.nodup_cons.mpr ⟨unlisted, chain.nodup⟩
    · exact chain.nodup
  · simp only [cell?_insertNew sound, bucket_insertNew]
    split
    · next own =>
      rw [List.mem_cons, chain.mem_iff]
      grind
    · rw [chain.mem_iff]
      grind

theorem insertNew_linked (sound : t.Sound) (linked : t.Linked) (item : α) :
    (t.insertNew item).Linked := fun bucket =>
  let ⟨_, chain⟩ := linked bucket
  ⟨_, chain.insertNew sound item⟩

theorem put_linked (sound : t.Sound) (linked : t.Linked) (item : α) : (t.put item).2.Linked := by
  cases found : t.find? item with
  | some i => rwa [put, found]
  | none =>
    rw [put, found]
    exact insertNew_linked sound linked item

theorem put_distinct (sound : t.Sound) (linked : t.Linked) (distinct : t.Distinct) {item : α}
    (matching : Canonical.matching t.tolerance item item = true) :
    (t.put item).2.Distinct := by
  cases found : t.find? item with
  | some i => simpa [put, found] using distinct
  | none =>
    -- an item that matches itself would have been found in its bucket
    have absent (i : Nat) : t.cell? i ≠ some item := fun stored => by
      rw [linked.find?_eq_none.mp found i item stored rfl] at matching
      cases matching
    intro i j other
    simp only [put, found, cell?_insertNew sound]
    split <;> split
    · next here there => exact fun _ _ => here.trans there.symm
    · rintro ⟨rfl⟩ stored
      exact absurd stored (absent j)
    · rintro stored ⟨rfl⟩
      exact absurd stored (absent i)
    · exact distinct i j other

theorem put_sound (sound : t.Sound) (item : α) : (t.put item).2.Sound := by
  rcases put_cases sound item with ⟨i, kept, put, -⟩ | ⟨i, t', put, -, sound', -⟩
  · rwa [put]
  · rwa [put]

theorem put_tolerance (t : UniqueTable σ α) (item : α) :
    (t.put item).2.tolerance = t.tolerance := by
  unfold put
  split
  · rfl
  · exact insertNew_tolerance t item

/-! ### Retaining -/

theorem indices_retain (t : UniqueTable σ α) (keep : Nat → Bool) :
    (t.retain keep).2.indices = t.indices.filter keep := by
  obtain ⟨cells, heads, shape, same⟩ := t.retain_shape keep
  have size : (t.retain keep).2.cells.size = t.cells.size := by rw [shape]; exact same
  rw [indices, indices, size, List.filter_filter]
  refine List.filter_congr fun i _ => ?_
  rw [isOccupied, cell?_retain]
  cases keep i
  · rfl
  · rfl

theorem bucket_retain (t : UniqueTable σ α) (keep : Nat → Bool) (item : α) :
    (t.retain keep).2.bucket item = t.bucket item := by
  obtain ⟨cells, heads, shape, -⟩ := t.retain_shape keep
  rw [shape]
  rfl

omit [Canonical σ α] in
theorem nodup_indices (t : UniqueTable σ α) : t.indices.Nodup :=
  List.Nodup.filter _ List.nodup_range'

theorem retain_chain (t : UniqueTable σ α) (keep : Nat → Bool) (bucket : Nat) :
    (t.retain keep).2.Chain bucket
      (((t.retain keep).2.indices.filter ((t.retain keep).2.inBucket bucket)).reverse) := by
  refine ⟨?_, List.nodup_reverse.mpr ((nodup_indices _).filter _), fun i => ?_⟩
  · let rest := t.without keep (t.dropped keep)
    have unlinked : rest.Path (rest.head bucket) [] := Std.TreeMap.getD_emptyc
    have linked := unlinked.foldl_link ((nodup_indices t).filter keep) (fun i member => by
      obtain ⟨occupied, kept⟩ := List.mem_filter.mp member
      rw [isOccupied, cell?, slot?_without, if_pos kept]
      exact mem_indices.mp occupied) fun i _ => List.not_mem_nil
    have same : (t.retain keep).2.inBucket bucket = rest.inBucket bucket := by
      funext i
      simp only [retain_eq, inBucket, cell?_foldl_link, bucket_foldl_link]
      rfl
    rw [indices_retain, same]
    simpa only [retain_eq, List.append_nil] using linked
  · rw [List.mem_reverse, List.mem_filter, mem_indices, inBucket_iff]
    exact ⟨And.right, fun here => ⟨by obtain ⟨item, stored, -⟩ := here; rw [stored]; rfl, here⟩⟩

theorem retain_linked (t : UniqueTable σ α) (keep : Nat → Bool) : (t.retain keep).2.Linked :=
  fun bucket => ⟨_, retain_chain t keep bucket⟩

theorem retain_distinct (distinct : t.Distinct) (keep : Nat → Bool) :
    (t.retain keep).2.Distinct := by
  intro i j item
  rw [cell?_retain, cell?_retain]
  split <;> split
  · exact distinct i j item
  · exact fun _ none => nomatch none
  · exact fun none _ => nomatch none
  · exact fun none _ => nomatch none

/-! ### Tables without repetitions -/

/-- A table at some tolerance that finds every item again and keeps none twice. -/
structure Indexed (tolerance : σ) (t : UniqueTable σ α) : Prop where
  sound : t.Sound
  tolerance_eq : t.tolerance = tolerance
  linked : t.Linked
  distinct : t.Distinct

theorem create_indexed [Scalar σ] {bits : Nat} {quantum tolerance : σ}
    (created : create bits quantum tolerance = .ok t) : t.Indexed tolerance := by
  obtain ⟨sound, same, -⟩ := create_sound created
  exact ⟨sound, same, create_linked created, create_distinct created⟩

namespace Indexed

variable {tolerance : σ}

theorem put (indexed : t.Indexed tolerance) {item : α}
    (matching : Canonical.matching tolerance item item = true) :
    (t.put item).2.Indexed tolerance where
  sound := put_sound indexed.sound item
  tolerance_eq := (put_tolerance t item).trans indexed.tolerance_eq
  linked := put_linked indexed.sound indexed.linked item
  distinct :=
    put_distinct indexed.sound indexed.linked indexed.distinct (indexed.tolerance_eq ▸ matching)

theorem retain (indexed : t.Indexed tolerance) (keep : Nat → Bool) :
    (t.retain keep).2.Indexed tolerance where
  sound := retain_sound indexed.sound keep
  tolerance_eq := (retain_tolerance t keep).trans indexed.tolerance_eq
  linked := retain_linked t keep
  distinct := retain_distinct indexed.distinct keep

end Indexed

theorem Extends.indexed {tolerance : σ} (more : t.Extends t')
    (matching : ∀ item : α, Canonical.matching tolerance item item = true)
    (indexed : t.Indexed tolerance) : t'.Indexed tolerance := by
  induction more with
  | refl => exact indexed
  | put _ item ih => exact ih.put (matching item)

end BayesDiagram.UniqueTable
