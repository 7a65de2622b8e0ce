import BayesDiagram.Diagram.UniqueTable

/-! The cells of a unique table. A put leaves every occupied cell as it is and answers a cell with
an item that matches; a retain empties exactly the cells that are not to be kept. -/
namespace BayesDiagram.UniqueTable

variable {σ α : Type}

structure Sound (t : UniqueTable σ α) : Prop where
  one_le_firstFree : 1 ≤ t.firstFree
  firstFree_le : t.firstFree ≤ t.cells.size + 1

theorem create_eq [Scalar σ] {bits : Nat} {quantum tolerance : σ} {t : UniqueTable σ α}
    (created : create bits quantum tolerance = .ok t) :
    t = ⟨bits, quantum, tolerance, #[], ∅, 1, 0⟩ := by
  unfold create at created
  split at created
  · cases created
  · split at created
    · cases created
      rfl
    · cases created

theorem create_sound [Scalar σ] {bits : Nat} {quantum tolerance : σ} {t : UniqueTable σ α}
    (created : create bits quantum tolerance = .ok t) :
    t.Sound ∧ t.tolerance = tolerance ∧ ∀ i, t.cell? i = none := by
  cases create_eq created
  refine ⟨⟨Nat.le_refl 1, Nat.le_refl 1⟩, rfl, fun i => ?_⟩
  cases i <;> rfl

theorem slot?_succ (t : UniqueTable σ α) (place : Nat) :
    t.slot? (place + 1) = t.cells[place]?.join := rfl

theorem cell?_eq_some {t : UniqueTable σ α} {i : Nat} {item : α} :
    t.cell? i = some item ↔ ∃ next, t.slot? i = some ⟨item, next⟩ := by
  rw [cell?, Option.map_eq_some_iff]
  constructor
  · rintro ⟨⟨_, next⟩, found, rfl⟩
    exact ⟨next, found⟩
  · exact fun ⟨next, found⟩ => ⟨⟨item, next⟩, found, rfl⟩

theorem lt_size_of_slot? {t : UniqueTable σ α} {place : Nat} {cell : Cell α}
    (occupied : t.slot? (place + 1) = some cell) : place < t.cells.size := by
  rw [slot?_succ, Option.join_eq_some_iff] at occupied
  exact (Array.getElem?_eq_some_iff.mp occupied).choose

theorem lt_size_of_cell? {t : UniqueTable σ α} {place : Nat} {item : α}
    (occupied : t.cell? (place + 1) = some item) : place < t.cells.size := by
  obtain ⟨next, found⟩ := cell?_eq_some.mp occupied
  exact lt_size_of_slot? found

theorem cell?_eq_none_of_size_le {t : UniqueTable σ α} {place : Nat}
    (outside : t.cells.size ≤ place) : t.cell? (place + 1) = none := by
  rw [cell?, slot?_succ, Array.getElem?_eq_none outside, Option.join_none, Option.map_none]

theorem value_of_cell? {t : UniqueTable σ α} {i : Nat} {item : α}
    (occupied : t.cell? i = some item) : t.value i = .ok item := by
  obtain ⟨next, found⟩ := cell?_eq_some.mp occupied
  cases i with
  | zero => cases found
  | succ place =>
    rw [slot?_succ, Option.join_eq_some_iff] at found
    simp only [value, found]

/-! ### Putting -/

theorem le_vacantFrom (t : UniqueTable σ α) (start count : Nat) :
    start ≤ t.vacantFrom start count ∧ t.vacantFrom start count ≤ start + count := by
  induction count generalizing start with
  | zero => simp [vacantFrom]
  | succ count ih =>
    unfold vacantFrom
    split
    · have := ih (start + 1)
      omega
    · omega

theorem vacantFrom_vacant (t : UniqueTable σ α) (start count : Nat) :
    t.vacantFrom start count = start + count ∨ t.cell? (t.vacantFrom start count) = none := by
  induction count generalizing start with
  | zero => exact .inl rfl
  | succ count ih =>
    unfold vacantFrom
    split
    · next occupied =>
      rcases ih (start + 1) with last | vacant
      · exact .inl (by omega)
      · exact .inr vacant
    · next vacant => exact .inr (by simpa [isOccupied] using vacant)

theorem nextCell_bounds {t : UniqueTable σ α} (sound : t.Sound) :
    1 ≤ t.nextCell ∧ t.nextCell ≤ t.cells.size + 1 := by
  have bounds := t.le_vacantFrom t.firstFree (t.cells.size + 1 - t.firstFree)
  have := sound.one_le_firstFree
  have := sound.firstFree_le
  unfold nextCell
  omega

theorem nextCell_vacant {t : UniqueTable σ α} (sound : t.Sound) : t.cell? t.nextCell = none := by
  rcases t.vacantFrom_vacant t.firstFree (t.cells.size + 1 - t.firstFree) with last | vacant
  · have := sound.firstFree_le
    have next : t.nextCell = t.cells.size + 1 := by
      unfold nextCell
      omega
    rw [next, cell?_eq_none_of_size_le (Nat.le_refl _)]
  · exact vacant

theorem size_cells_place (t : UniqueTable σ α) (i : Nat) (item : α) :
    (t.place i item).cells.size = if i = t.cells.size + 1 then t.cells.size + 1
      else t.cells.size := by
  rw [place]
  split
  · exact Array.size_push _
  · exact Array.size_setIfInBounds ..

theorem slot?_place (t : UniqueTable σ α) {i : Nat} (positive : 1 ≤ i)
    (bound : i ≤ t.cells.size + 1) (item : α) (j : Nat) :
    (t.place i item).slot? j = if j = i then some ⟨item, 0⟩ else t.slot? j := by
  cases j with
  | zero => rw [if_neg (by omega)]; rfl
  | succ place =>
    simp only [slot?_succ, UniqueTable.place]
    split
    · next last =>
      rw [Array.getElem?_push]
      split
      · next here => rw [if_pos (by omega)]; rfl
      · rw [if_neg (by omega)]
    · next inner =>
      rw [Array.getElem?_setIfInBounds]
      split
      · next here =>
        rw [if_pos (by omega), if_pos (by omega)]
        rfl
      · rw [if_neg (by omega)]

variable [Canonical σ α]

/-! ### Links -/

theorem link_of_slot? {t : UniqueTable σ α} {i : Nat} {cell : Cell α}
    (occupied : t.slot? i = some cell) :
    (∀ j, (t.link i).slot? j =
      if j = i then some { cell with next := t.head (t.bucket cell.item) } else t.slot? j) ∧
    ∀ bucket, (t.link i).head bucket =
      if bucket = t.bucket cell.item then i else t.head bucket := by
  cases i with
  | zero => cases occupied
  | succ here =>
    have inside := lt_size_of_slot? occupied
    simp only [link, occupied]
    refine ⟨fun j => ?_, fun bucket => ?_⟩
    · cases j with
      | zero => rw [if_neg (by omega)]; rfl
      | succ place =>
        simp only [slot?_succ]
        rw [Array.getElem?_setIfInBounds]
        split
        · next same =>
          rw [if_pos (by omega), if_pos (by omega)]
          rfl
        · rw [if_neg (by omega)]
    · simp only [head, Std.TreeMap.getD_insert, Nat.compare_eq_eq]
      simp only [eq_comm]

theorem link_eq (t : UniqueTable σ α) (i : Nat) :
    ∃ cells heads, t.link i = { t with cells, heads } ∧ cells.size = t.cells.size := by
  rw [link]
  split
  · exact ⟨t.cells, t.heads, rfl, rfl⟩
  · exact ⟨_, _, rfl, Array.size_setIfInBounds ..⟩

@[simp] theorem cell?_link (t : UniqueTable σ α) (i j : Nat) : (t.link i).cell? j = t.cell? j := by
  cases occupied : t.slot? i with
  | none => rw [link, occupied]
  | some cell =>
    rw [cell?, (link_of_slot? occupied).1]
    split
    · next same => rw [same, cell?, occupied]; rfl
    · rfl

theorem foldl_link_eq (t : UniqueTable σ α) (kept : List Nat) :
    ∃ cells heads, kept.foldl link t = { t with cells, heads } ∧ cells.size = t.cells.size := by
  induction kept generalizing t with
  | nil => exact ⟨t.cells, t.heads, rfl, rfl⟩
  | cons i kept ih =>
    obtain ⟨cells, heads, linked, same⟩ := t.link_eq i
    obtain ⟨cells', heads', folded, same'⟩ := ih (t.link i)
    refine ⟨cells', heads', ?_, ?_⟩
    · rw [List.foldl_cons, folded, linked]
    · rw [same', linked]
      exact same

@[simp] theorem cell?_foldl_link (t : UniqueTable σ α) (kept : List Nat) (j : Nat) :
    (kept.foldl link t).cell? j = t.cell? j := by
  induction kept generalizing t with
  | nil => rfl
  | cons i kept ih => rw [List.foldl_cons, ih, cell?_link]

/-! ### New items -/

theorem cell?_insertNew {t : UniqueTable σ α} (sound : t.Sound) (item : α) (i : Nat) :
    (t.insertNew item).cell? i = if i = t.nextCell then some item else t.cell? i := by
  obtain ⟨positive, bound⟩ := nextCell_bounds sound
  rw [insertNew, cell?_link]
  show ((t.place t.nextCell item).slot? i).map Cell.item = _
  rw [slot?_place t positive bound]
  split
  · rfl
  · rfl

theorem insertNew_shape (t : UniqueTable σ α) (item : α) :
    ∃ cells heads, t.insertNew item =
      { t with cells, heads, firstFree := t.nextCell + 1, size := t.size + 1 } ∧
      cells.size = (t.place t.nextCell item).cells.size :=
  link_eq { t.place t.nextCell item with firstFree := t.nextCell + 1, size := t.size + 1 } _

theorem insertNew_sound {t : UniqueTable σ α} (sound : t.Sound) (item : α) :
    (t.insertNew item).Sound := by
  obtain ⟨positive, bound⟩ := nextCell_bounds sound
  obtain ⟨cells, heads, shape, same⟩ := t.insertNew_shape item
  rw [shape]
  refine ⟨Nat.le_add_left 1 t.nextCell, ?_⟩
  simp only [same, size_cells_place]
  split
  · omega
  · omega

@[simp] theorem insertNew_tolerance (t : UniqueTable σ α) (item : α) :
    (t.insertNew item).tolerance = t.tolerance := by
  obtain ⟨cells, heads, shape, -⟩ := t.insertNew_shape item
  rw [shape]

theorem cell?_of_search {t : UniqueTable σ α} {item : α} {steps start i : Nat}
    (found : t.search item steps start = some i) :
    ∃ kept, t.cell? i = some kept ∧ Canonical.matching t.tolerance item kept = true := by
  induction steps generalizing start with
  | zero => cases found
  | succ steps ih =>
    rw [search] at found
    split at found
    · cases found
    · next cell occupied =>
      split at found
      · next matching =>
        cases found
        exact ⟨cell.item, by rw [cell?, occupied]; rfl, matching⟩
      · exact ih found

theorem cell?_of_find? {t : UniqueTable σ α} {item : α} {i : Nat} (found : t.find? item = some i) :
    ∃ kept, t.cell? i = some kept ∧ Canonical.matching t.tolerance item kept = true :=
  cell?_of_search found

/-- What a put answers: a cell that held a matching item, or a vacant cell that now holds the
item. No other cell changes. -/
theorem put_cases {t : UniqueTable σ α} (sound : t.Sound) (item : α) :
    (∃ i kept, t.put item = (i, t) ∧ t.cell? i = some kept ∧
      Canonical.matching t.tolerance item kept = true) ∨
    ∃ i t', t.put item = (i, t') ∧ t.cell? i = none ∧ t'.Sound ∧ t'.tolerance = t.tolerance ∧
      ∀ j, t'.cell? j = if j = i then some item else t.cell? j := by
  cases found : t.find? item with
  | some i =>
    obtain ⟨kept, occupied, matching⟩ := cell?_of_find? found
    exact .inl ⟨i, kept, by rw [put, found], occupied, matching⟩
  | none =>
    exact .inr ⟨t.nextCell, t.insertNew item, by rw [put, found], nextCell_vacant sound,
      insertNew_sound sound item, insertNew_tolerance t item, cell?_insertNew sound item⟩

inductive Extends (t : UniqueTable σ α) : UniqueTable σ α → Prop where
  | refl : Extends t t
  | put {t' : UniqueTable σ α} (earlier : Extends t t') (item : α) : Extends t (t'.put item).2

theorem Extends.trans {t t' t'' : UniqueTable σ α} (first : t.Extends t')
    (second : t'.Extends t'') : t.Extends t'' := by
  induction second with
  | refl => exact first
  | put _ item ih => exact .put ih item

/-! ### Retaining -/

omit [Canonical σ α] in
theorem mem_indices {t : UniqueTable σ α} {i : Nat} : i ∈ t.indices ↔ (t.cell? i).isSome := by
  unfold indices
  rw [List.mem_filter, List.mem_range'_1]
  refine ⟨fun member => member.2, fun occupied => ⟨?_, occupied⟩⟩
  cases i with
  | zero => cases occupied
  | succ place =>
    obtain ⟨item, stored⟩ := Option.isSome_iff_exists.mp occupied
    have := lt_size_of_cell? stored
    omega

omit [Canonical σ α] in
theorem slot?_without (t : UniqueTable σ α) (keep : Nat → Bool) (dropped : List Nat) (i : Nat) :
    (t.without keep dropped).slot? i = if keep i then t.slot? i else none := by
  cases i with
  | zero => exact (ite_self none).symm
  | succ place =>
    simp only [slot?_succ, without, Array.getElem?_mapIdx]
    cases t.cells[place]? with
    | none => exact (ite_self none).symm
    | some cell => simp only [Option.map_some, Option.join_some]

theorem cell?_retain (t : UniqueTable σ α) (keep : Nat → Bool) (i : Nat) :
    (t.retain keep).2.cell? i = if keep i then t.cell? i else none := by
  rw [retain, cell?_foldl_link, cell?, slot?_without]
  split
  · rfl
  · rfl

private theorem one_le_foldl_min {cells : List Nat} (positive : ∀ i ∈ cells, 1 ≤ i) {start : Nat}
    (one_le : 1 ≤ start) : 1 ≤ cells.foldl min start := by
  induction cells generalizing start with
  | nil => exact one_le
  | cons i cells ih =>
    exact ih (fun j member => positive j (.tail i member))
      (Nat.le_min.mpr ⟨one_le, positive i (.head cells)⟩)

private theorem foldl_min_le (cells : List Nat) (start : Nat) : cells.foldl min start ≤ start := by
  induction cells generalizing start with
  | nil => exact Nat.le_refl start
  | cons i cells ih => exact Nat.le_trans (ih (min start i)) (Nat.min_le_left start i)

def dropped (t : UniqueTable σ α) (keep : Nat → Bool) : List Nat :=
  t.indices.filter (not ∘ keep)

theorem retain_eq (t : UniqueTable σ α) (keep : Nat → Bool) :
    t.retain keep = ((t.dropped keep).length,
      (t.indices.filter keep).foldl link (t.without keep (t.dropped keep))) := by
  rw [retain, List.partition_eq_filter_filter]
  rfl

theorem retain_shape (t : UniqueTable σ α) (keep : Nat → Bool) :
    ∃ cells heads, (t.retain keep).2 = { t.without keep (t.dropped keep) with cells, heads } ∧
      cells.size = t.cells.size := by
  obtain ⟨cells, heads, linked, same⟩ :=
    foldl_link_eq (t.without keep (t.dropped keep)) (t.indices.filter keep)
  exact ⟨cells, heads, by rw [retain_eq, linked], same.trans Array.size_mapIdx⟩

theorem retain_sound {t : UniqueTable σ α} (sound : t.Sound) (keep : Nat → Bool) :
    (t.retain keep).2.Sound := by
  obtain ⟨cells, heads, shape, same⟩ := t.retain_shape keep
  rw [shape]
  refine ⟨one_le_foldl_min (fun i dropped => ?_) sound.one_le_firstFree, ?_⟩
  · have occupied := mem_indices.mp (List.mem_filter.mp dropped).1
    cases i with
    | zero => cases occupied
    | succ place => exact Nat.le_add_left 1 place
  · have := foldl_min_le (t.dropped keep) t.firstFree
    have := sound.firstFree_le
    simp only [same, without]
    omega

@[simp] theorem retain_tolerance (t : UniqueTable σ α) (keep : Nat → Bool) :
    (t.retain keep).2.tolerance = t.tolerance := by
  obtain ⟨cells, heads, shape, -⟩ := t.retain_shape keep
  rw [shape]
  rfl

end BayesDiagram.UniqueTable
