import BayesDiagram.Network.ConditionalTable
import BayesDiagram.Number.Exact
import BayesDiagram.Proofs.Sequences
import Mathlib.Algebra.BigOperators.Group.List.Basic
import Mathlib.Data.List.Infix
import Mathlib.Data.List.Nodup

/-! Dense tables. A list with a probability for every assignment of a scope, the last parent varying
fastest, is the table that has each probability at the assignment of its rank. The rows of that
table, added in any order, make the same table. -/
namespace BayesDiagram

/-! ### Ranks -/

variable {sizes assignment row : List Nat} {r size value : Nat}

def InRange (sizes assignment : List Nat) : Prop :=
  List.Forall₂ (fun size value => value < size) sizes assignment

/-- The rank of an assignment in mixed radix, its first value most significant. -/
def assignmentRank : (sizes assignment : List Nat) → Nat
  | _ :: sizes, value :: assignment => value * sizes.prod + assignmentRank sizes assignment
  | _, _ => 0

theorem inRange_cons :
    InRange (size :: sizes) (value :: row) ↔ value < size ∧ InRange sizes row :=
  List.forall₂_cons

theorem InRange.length_eq (inRange : InRange sizes assignment) :
    assignment.length = sizes.length :=
  (List.Forall₂.length_eq inRange).symm

theorem assignmentRank_lt (inRange : InRange sizes assignment) :
    assignmentRank sizes assignment < sizes.prod := by
  induction inRange with
  | nil => exact Nat.one_pos
  | @cons size value sizes assignment below _ ih =>
    calc value * sizes.prod + assignmentRank sizes assignment
        < value * sizes.prod + sizes.prod := Nat.add_lt_add_left ih _
      _ = (value + 1) * sizes.prod := (Nat.succ_mul _ _).symm
      _ ≤ size * sizes.prod := Nat.mul_le_mul_right _ below
      _ = (size :: sizes).prod := List.prod_cons.symm

theorem assignmentRank_inj {other : List Nat} (inRange : InRange sizes assignment)
    (inRange' : InRange sizes other)
    (same : assignmentRank sizes assignment = assignmentRank sizes other) : assignment = other := by
  induction inRange generalizing other with
  | nil =>
    cases inRange'
    rfl
  | @cons size value sizes assignment _ inRange ih =>
    cases inRange' with
    | @cons _ value' _ other _ inRange' =>
      have below := assignmentRank_lt inRange
      have below' := assignmentRank_lt inRange'
      have positive : 0 < sizes.prod := Nat.zero_lt_of_lt below
      simp only [assignmentRank] at same
      have heads : value = value' := by
        have quotients := congrArg (· / sizes.prod) same
        simpa [Nat.mul_comm _ sizes.prod, Nat.mul_add_div positive, Nat.div_eq_of_lt below,
          Nat.div_eq_of_lt below'] using quotients
      subst heads
      rw [ih inRange' (Nat.add_left_cancel same)]

/-! ### The odometer -/

theorem InRange.exists_concat (inRange : InRange (sizes ++ [size]) assignment) :
    ∃ row value, assignment = row ++ [value] ∧ row.length = sizes.length := by
  have lengths := inRange.length_eq
  rcases List.eq_nil_or_concat' assignment with rfl | ⟨row, value, rfl⟩
  · simp at lengths
  · exact ⟨row, value, rfl, by simpa using lengths⟩

theorem inRange_concat (lengths : row.length = sizes.length) :
    InRange (sizes ++ [size]) (row ++ [value]) ↔ InRange sizes row ∧ value < size := by
  induction sizes generalizing row with
  | nil =>
    obtain rfl := List.length_eq_zero_iff.mp lengths
    simp [InRange]
  | cons first sizes ih =>
    obtain ⟨digit, row, rfl⟩ := List.exists_cons_of_length_eq_add_one lengths
    simp only [List.cons_append, inRange_cons, ih (Nat.succ.inj lengths), and_assoc]

theorem assignmentRank_concat (lengths : row.length = sizes.length) :
    assignmentRank (sizes ++ [size]) (row ++ [value]) =
      assignmentRank sizes row * size + value := by
  induction sizes generalizing row with
  | nil =>
    obtain rfl := List.length_eq_zero_iff.mp lengths
    simp [assignmentRank]
  | cons first sizes ih =>
    obtain ⟨digit, row, rfl⟩ := List.exists_cons_of_length_eq_add_one lengths
    simp only [List.cons_append, assignmentRank, ih (Nat.succ.inj lengths), List.prod_append,
      List.prod_singleton, Nat.add_mul, Nat.mul_assoc, Nat.add_assoc]

theorem advance_append {behind behind' : List Nat} {position : Nat}
    (lengths : row.length = sizes.length) (within : position ≤ sizes.length) :
    advance (sizes ++ behind) position (row ++ behind') =
      advance sizes position row ++ behind' := by
  induction position generalizing row with
  | zero => rfl
  | succ position ih =>
    have inRow : position < row.length := by omega
    have inSizes : position < sizes.length := by omega
    simp only [advance, List.getD_eq_getElem?_getD, List.getElem?_append_left inRow,
      List.getElem?_append_left inSizes, List.set_append_left _ _ inRow]
    rw [ih (by rw [List.length_set, lengths]) (Nat.le_of_succ_le within)]
    split <;> rfl

theorem nextAssignment_concat (lengths : row.length = sizes.length) :
    nextAssignment (sizes ++ [size]) (row ++ [value]) =
      if value + 1 < size then row ++ [value + 1] else nextAssignment sizes row ++ [0] := by
  have shown : (row ++ [value]).getD sizes.length 0 = value := by simp [← lengths]
  have bound : (sizes ++ [size]).getD sizes.length 0 = size := by simp
  have written (digit : Nat) : (row ++ [value]).set sizes.length digit = row ++ [digit] := by
    simp [← lengths]
  rw [nextAssignment, List.length_append, List.length_singleton, advance]
  simp only [shown, bound, written, advance_append lengths (Nat.le_refl _)]
  rfl

/-- An assignment in range is followed by the one of the next rank, the last one by the first. -/
theorem nextAssignment_spec (inRange : InRange sizes assignment) :
    InRange sizes (nextAssignment sizes assignment) ∧
      assignmentRank sizes (nextAssignment sizes assignment) =
        (assignmentRank sizes assignment + 1) % sizes.prod := by
  -- from the last position on: a carry is the same step on the positions before it
  induction sizes using List.reverseRecOn generalizing assignment with
  | nil =>
    cases inRange
    exact ⟨.nil, rfl⟩
  | append_singleton sizes size ih =>
    obtain ⟨row, value, rfl, lengths⟩ := inRange.exists_concat
    obtain ⟨inRange, below⟩ := (inRange_concat lengths).mp inRange
    obtain ⟨inRange', rank⟩ := ih inRange
    have bound := assignmentRank_lt inRange
    rw [nextAssignment_concat lengths, assignmentRank_concat lengths, List.prod_append,
      List.prod_singleton]
    split
    · next grows =>
      rw [inRange_concat lengths, assignmentRank_concat lengths]
      refine ⟨⟨inRange, grows⟩, (Nat.mod_eq_of_lt ?_).symm⟩
      calc assignmentRank sizes row * size + value + 1
          < (assignmentRank sizes row + 1) * size := by rw [Nat.succ_mul]; omega
        _ ≤ sizes.prod * size := Nat.mul_le_mul_right _ bound
    · next wraps =>
      obtain rfl : size = value + 1 := by omega
      rw [inRange_concat inRange'.length_eq, assignmentRank_concat inRange'.length_eq, rank,
        Nat.add_zero, Nat.add_assoc, ← Nat.succ_mul, Nat.mul_mod_mul_right]
      exact ⟨⟨inRange', Nat.succ_pos value⟩, rfl⟩

theorem firstAssignment_spec (positive : 0 < sizes.prod) :
    InRange sizes (firstAssignment sizes) ∧ assignmentRank sizes (firstAssignment sizes) = 0 := by
  induction sizes with
  | nil => exact ⟨.nil, rfl⟩
  | cons size sizes ih =>
    rw [List.prod_cons] at positive
    obtain ⟨inRange, rank⟩ := ih (Nat.pos_of_mul_pos_left positive)
    refine ⟨inRange_cons.mpr ⟨Nat.pos_of_mul_pos_right positive, inRange⟩, ?_⟩
    show 0 * sizes.prod + assignmentRank sizes (firstAssignment sizes) = 0
    rw [rank, Nat.zero_mul]

/-- As many steps from the first assignment as there are assignments before it lead to each. -/
theorem iterate_nextAssignment (below : r < sizes.prod) :
    InRange sizes ((nextAssignment sizes)^[r] (firstAssignment sizes)) ∧
      assignmentRank sizes ((nextAssignment sizes)^[r] (firstAssignment sizes)) = r := by
  induction r with
  | zero => exact firstAssignment_spec below
  | succ r ih =>
    obtain ⟨inRange, rank⟩ := ih (Nat.lt_of_succ_lt below)
    obtain ⟨inRange', rank'⟩ := nextAssignment_spec inRange
    rw [Function.iterate_succ_apply']
    exact ⟨inRange', by rw [rank', rank, Nat.mod_eq_of_lt below]⟩

theorem length_assignmentsFrom (count : Nat) (assignment : List Nat) :
    (assignmentsFrom sizes count assignment).length = count := by
  induction count generalizing assignment with
  | zero => rfl
  | succ count ih => simp [assignmentsFrom, ih]

theorem getElem?_assignmentsFrom {count : Nat} (below : r < count) :
    (assignmentsFrom sizes count assignment)[r]? =
      some ((nextAssignment sizes)^[r] assignment) := by
  induction count generalizing r assignment with
  | zero => cases below
  | succ count ih =>
    cases r with
    | zero => rfl
    | succ r => exact ih (Nat.lt_of_succ_lt_succ below)

theorem length_assignments (sizes : List Nat) : (assignments sizes).length = sizes.prod :=
  length_assignmentsFrom _ _

theorem getElem?_assignments :
    (assignments sizes)[r]? = some assignment ↔
      InRange sizes assignment ∧ assignmentRank sizes assignment = r := by
  have stepped (below : r < sizes.prod) :
      (assignments sizes)[r]? = some ((nextAssignment sizes)^[r] (firstAssignment sizes)) :=
    getElem?_assignmentsFrom below
  constructor
  · intro shown
    have below : r < sizes.prod :=
      length_assignments sizes ▸ (List.getElem?_eq_some_iff.mp shown).1
    rw [stepped below, Option.some.injEq] at shown
    exact shown ▸ iterate_nextAssignment below
  · rintro ⟨inRange, rfl⟩
    have below := assignmentRank_lt inRange
    obtain ⟨shown, rank⟩ := iterate_nextAssignment below
    rw [stepped below, assignmentRank_inj shown inRange rank]

theorem mem_assignments : assignment ∈ assignments sizes ↔ InRange sizes assignment := by
  simp only [List.mem_iff_getElem?, getElem?_assignments, exists_and_left, exists_eq', and_true]

theorem nodup_assignments (sizes : List Nat) : (assignments sizes).Nodup := by
  refine List.nodup_iff_getElem?_ne_getElem?.mpr fun r r' before bound same => ?_
  have shown := List.getElem?_eq_getElem bound
  have rank := (getElem?_assignments.mp shown).2
  have rank' := (getElem?_assignments.mp (same.trans shown)).2
  omega

namespace ConditionalTable

variable {σ : Type} {t : ConditionalTable σ} {head : String} {parents : List String}
  {probabilities : List σ} {p : σ}

/-! ### Entries -/

def setAll (t : ConditionalTable σ) (entries : List (List Nat × σ)) : ConditionalTable σ :=
  entries.foldl (fun t (assignment, p) => t.set assignment p) t

theorem setAll_eq (t : ConditionalTable σ) (entries : List (List Nat × σ)) :
    t.setAll entries = { t with entries := (t.setAll entries).entries } := by
  induction entries generalizing t with
  | nil => rfl
  | cons entry entries ih => exact ih (t.set entry.1 entry.2)

theorem parents_setAll (t : ConditionalTable σ) (entries : List (List Nat × σ)) :
    (t.setAll entries).parents = t.parents := by
  rw [setAll_eq]

theorem setAll_append (t : ConditionalTable σ) (entries entries' : List (List Nat × σ)) :
    t.setAll (entries ++ entries') = (t.setAll entries).setAll entries' :=
  List.foldl_append

theorem getElem?_setAll {entries : List (List Nat × σ)} (distinct : (entries.map Prod.fst).Nodup) :
    (t.setAll entries).entries[assignment]? = some p ↔ (assignment, p) ∈ entries ∨
      assignment ∉ entries.map Prod.fst ∧ t.entries[assignment]? = some p := by
  induction entries generalizing t with
  | nil => simp [setAll]
  | cons entry entries ih =>
    obtain ⟨first, its⟩ := entry
    obtain ⟨new, distinct⟩ := List.nodup_cons.mp distinct
    refine (ih (t := t.set first its) distinct).trans ?_
    by_cases same : assignment = first
    · -- a later entry here would replace this one, but there is none
      subst same
      have unset : (assignment, p) ∉ entries := fun mem => new (List.mem_map.mpr ⟨_, mem, rfl⟩)
      simp [set, new, unset, @eq_comm _ p]
    · have apart : compare first assignment ≠ .eq := fun equal =>
        same (Std.LawfulEqOrd.eq_of_compare equal).symm
      simp [set, Std.ExtTreeMap.getElem?_insert, same, Ne.symm same]

theorem setAll_congr {entries entries' : List (List Nat × σ)}
    (distinct : (entries.map Prod.fst).Nodup) (distinct' : (entries'.map Prod.fst).Nodup)
    (same : ∀ entry, entry ∈ entries ↔ entry ∈ entries') :
    t.setAll entries = t.setAll entries' := by
  have sameKeys (assignment : List Nat) :
      assignment ∈ entries.map Prod.fst ↔ assignment ∈ entries'.map Prod.fst := by
    simp only [List.mem_map, same]
  have sameEntries : (t.setAll entries).entries = (t.setAll entries').entries := by
    refine Std.ExtTreeMap.ext_getElem? fun assignment => Option.ext fun p => ?_
    rw [getElem?_setAll distinct, getElem?_setAll distinct', same, sameKeys]
  rw [setAll_eq, sameEntries, ← setAll_eq]

/-! ### Lists of probabilities -/

def denseEntries (sizes : List Nat) (probabilities : List σ) : List (List Nat × σ) :=
  (assignments sizes).zip probabilities

theorem mem_denseEntries : (assignment, p) ∈ denseEntries sizes probabilities ↔
    InRange sizes assignment ∧ probabilities[assignmentRank sizes assignment]? = some p := by
  rw [denseEntries, List.mem_iff_getElem?]
  simp only [List.getElem?_zip_eq_some, getElem?_assignments]
  exact ⟨fun ⟨_, ⟨inRange, rfl⟩, found⟩ => ⟨inRange, found⟩,
    fun ⟨inRange, found⟩ => ⟨_, ⟨inRange, rfl⟩, found⟩⟩

theorem keys_denseEntries (full : probabilities.length = sizes.prod) :
    (denseEntries sizes probabilities).map Prod.fst = assignments sizes :=
  List.map_fst_zip (Nat.le_of_eq ((length_assignments sizes).trans full.symm))

/-- The odometer goes through the probabilities and the assignments side by side. -/
theorem foldl_setNext :
    (probabilities.foldl (setNext sizes) (t, assignment)).1 =
      t.setAll ((assignmentsFrom sizes probabilities.length assignment).zip probabilities) := by
  induction probabilities generalizing t assignment with
  | nil => rfl
  | cons p probabilities ih => exact ih

theorem getElem?_denseEntries (full : probabilities.length = sizes.prod) :
    ((empty head parents).setAll (denseEntries sizes probabilities)).entries[assignment]? = some p ↔
      InRange sizes assignment ∧ probabilities[assignmentRank sizes assignment]? = some p := by
  rw [getElem?_setAll (keys_denseEntries full ▸ nodup_assignments sizes), mem_denseEntries]
  exact or_iff_left fun old => by simp [empty] at old

def multiplySize (product size : Nat) : Except Fault Nat :=
  if product * size < UInt64.size then .ok (product * size) else .error .productOverflow

theorem foldlM_multiplySize {start product : Nat} (below : start < UInt64.size) :
    sizes.foldlM multiplySize start = .ok product ↔
      (∀ leading, leading <+: sizes → start * leading.prod < UInt64.size) ∧
        start * sizes.prod = product := by
  induction sizes generalizing start with
  | nil => simp [List.prefix_nil, below, pure, Except.pure]
  | cons size sizes ih =>
    have leading : (∀ leading, leading <+: size :: sizes → start * leading.prod < UInt64.size) ↔
        start * size < UInt64.size ∧
          ∀ leading, leading <+: sizes → start * size * leading.prod < UInt64.size := by
      constructor
      · intro all
        refine ⟨?_, fun leading leads => ?_⟩
        · simpa using all [size] ⟨sizes, rfl⟩
        · rw [Nat.mul_assoc, ← List.prod_cons]
          exact all _ (List.prefix_cons_iff.mpr (.inr ⟨leading, rfl, leads⟩))
      · rintro ⟨-, later⟩ leading leads
        rcases List.prefix_cons_iff.mp leads with rfl | ⟨rest, rfl, leads'⟩
        · simpa using below
        · rw [List.prod_cons, ← Nat.mul_assoc]
          exact later rest leads'
    rw [List.foldlM_cons, multiplySize, leading, List.prod_cons, ← Nat.mul_assoc]
    split
    · next fits =>
      rw [and_iff_right fits]
      exact ih fits
    · next exceeds => exact iff_of_false nofun fun both => exceeds both.1.1

theorem denseSize_eq_ok {product : Nat} : denseSize sizes = .ok product ↔
    (∀ leading, leading <+: sizes → leading.prod < UInt64.size) ∧ sizes.prod = product := by
  have run : sizes.foldlM multiplySize 1 = .ok product ↔
      (∀ leading, leading <+: sizes → 1 * leading.prod < UInt64.size) ∧
        1 * sizes.prod = product :=
    foldlM_multiplySize (by decide)
  simp only [Nat.one_mul] at run
  exact run

theorem ofDense_eq_ok :
    (ofDense head parents sizes probabilities : Except (Failure σ) _) = .ok t ↔
      sizes.length = parents.length + 1 ∧
      (∀ leading, leading <+: sizes → leading.prod < UInt64.size) ∧
      probabilities.length = sizes.prod ∧
      (empty head parents).setAll (denseEntries sizes probabilities) = t := by
  have scope : (empty head parents : ConditionalTable σ).scope.length = parents.length + 1 := rfl
  rw [ofDense]
  dsimp only
  rw [scope]
  by_cases count : sizes.length = parents.length + 1
  · rw [if_neg (not_not.mpr count), and_iff_right count]
    refine bind_eq_ok.trans ?_
    simp only [Failure.liftFault_eq_ok, denseSize_eq_ok, and_assoc, exists_and_left,
      exists_eq_left']
    refine and_congr_right fun _ => ?_
    by_cases full : probabilities.length = sizes.prod
    · rw [if_neg (not_not.mpr full), and_iff_right full, foldl_setNext, full]
      exact ⟨Except.ok.inj, congrArg Except.ok⟩
    · rw [if_pos full]
      exact iff_of_false nofun fun both => full both.1
  · rw [if_pos count]
    exact iff_of_false nofun fun all => count all.1

/-! ### Rows -/

def rowEntries (row : List Nat) (probabilities : List σ) : List (List Nat × σ) :=
  probabilities.zipIdx.map fun (p, value) => (value :: row, p)

theorem addRow_eq (fits : row.length = t.parents.length) :
    (t.addRow row probabilities : Except (Error σ) _) =
      .ok (t.setAll (rowEntries row probabilities)) := by
  rw [addRow, if_neg (not_not.mpr fits), setAll, rowEntries, List.foldl_map]

theorem foldlM_addRow {rows : List (List Nat)} {probabilitiesOf : List Nat → List σ}
    (fits : ∀ row ∈ rows, row.length = t.parents.length) :
    rows.foldlM (fun t row => t.addRow row (probabilitiesOf row)) t =
      .ok (t.setAll (rows.flatMap fun row => rowEntries row (probabilitiesOf row))) := by
  induction rows generalizing t with
  | nil => rfl
  | cons row rows ih =>
    rw [List.foldlM_cons, addRow_eq (fits row (.head rows)), List.flatMap_cons, setAll_append]
    refine ih fun other later => ?_
    rw [parents_setAll]
    exact fits other (.tail row later)

variable [Zero σ]

def column (t : ConditionalTable σ) (size : Nat) (row : List Nat) : List σ :=
  (List.range size).map fun value => t.entry (value :: row)

theorem rowEntries_column (t : ConditionalTable σ) (size : Nat) (row : List Nat) :
    rowEntries row (t.column size row) =
      (List.range size).map fun value => (value :: row, t.entry (value :: row)) := by
  refine List.ext_getElem? fun value => ?_
  by_cases below : value < size
  · simp [rowEntries, column, below]
  · simp [rowEntries, column, below]

theorem mem_flatMap_rowEntries {rows : List (List Nat)}
    (listed : ∀ row, row ∈ rows ↔ InRange sizes row) :
    (assignment, p) ∈ rows.flatMap (fun row => rowEntries row (t.column size row)) ↔
      InRange (size :: sizes) assignment ∧ t.entry assignment = p := by
  simp only [rowEntries_column, List.mem_flatMap, List.mem_map, List.mem_range, Prod.mk.injEq,
    listed]
  constructor
  · rintro ⟨row, inRange, value, below, rfl, rfl⟩
    exact ⟨inRange_cons.mpr ⟨below, inRange⟩, rfl⟩
  · rintro ⟨inRange, rfl⟩
    cases inRange with
    | @cons _ value _ row below inRange => exact ⟨row, inRange, value, below, rfl, rfl⟩

theorem nodup_keys_rows {rows : List (List Nat)} (nodup : rows.Nodup) :
    ((rows.flatMap fun row => rowEntries row (t.column size row)).map Prod.fst).Nodup := by
  simp only [List.map_flatMap, rowEntries_column, List.map_map]
  refine List.nodup_flatMap.mpr ⟨fun row _ => ?_, nodup.imp fun differ assignment here there => ?_⟩
  · exact List.nodup_range.map fun _ _ same => (List.cons.inj same).1
  · obtain ⟨value, -, rfl⟩ := List.mem_map.mp here
    obtain ⟨other, -, same⟩ := List.mem_map.mp there
    exact differ (List.cons.inj same).2.symm

/-- A list of probabilities makes a table only if there is a size for each variable of the scope and
a probability for each assignment in range, and then it does, as long as the products of leading
sizes stay within 64 bits. The table has entries for these assignments only, each by its rank; and
adding the rows of it in any order makes the same table. -/
theorem ofDense_enumerates (head : String) (parents : List String) (sizes : List Nat)
    (probabilities : List σ) :
    ((∃ t, ofDense head parents sizes probabilities = .ok t) →
      sizes.length = parents.length + 1 ∧ probabilities.length = sizes.prod) ∧
    ((∀ leading, leading <+: sizes → leading.prod < UInt64.size) →
      sizes.length = parents.length + 1 ∧ probabilities.length = sizes.prod →
      ∃ t, ofDense head parents sizes probabilities = .ok t) ∧
    ∀ t, ofDense head parents sizes probabilities = .ok t →
      (∀ assignment, assignment ∈ t.entries ↔ InRange sizes assignment) ∧
      (∀ assignment, InRange sizes assignment →
        probabilities[assignmentRank sizes assignment]? = some (t.entry assignment)) ∧
      ∀ rows : List (List Nat), rows.Nodup → (∀ row, row ∈ rows ↔ InRange sizes.tail row) →
        rows.foldlM (fun t' row => t'.addRow row (t.column (sizes.headD 0) row))
          (empty head parents) = .ok t := by
  refine ⟨?_, fun fits both => ⟨_, ofDense_eq_ok.mpr ⟨both.1, fits, both.2, rfl⟩⟩, fun t made => ?_⟩
  · rintro ⟨t, made⟩
    obtain ⟨count, -, full, -⟩ := ofDense_eq_ok.mp made
    exact ⟨count, full⟩
  obtain ⟨count, -, full, same⟩ := ofDense_eq_ok.mp made
  have found (assignment : List Nat) (p : σ) : t.entries[assignment]? = some p ↔
      InRange sizes assignment ∧ probabilities[assignmentRank sizes assignment]? = some p :=
    same ▸ getElem?_denseEntries full
  have given (assignment : List Nat) (inRange : InRange sizes assignment) :
      probabilities[assignmentRank sizes assignment]? = some (t.entry assignment) := by
    have below := full ▸ assignmentRank_lt inRange
    have there := (found _ _).mpr ⟨inRange, List.getElem?_eq_getElem below⟩
    rw [entry, Std.ExtTreeMap.getD_eq_getD_getElem?, there, List.getElem?_eq_getElem below]
    rfl
  refine ⟨fun assignment => ?_, given, fun rows nodup listed => ?_⟩
  · rw [← Std.ExtTreeMap.isSome_getElem?_iff_mem, Option.isSome_iff_exists]
    simp only [found, exists_and_left]
    exact and_iff_left_of_imp fun inRange => ⟨_, given assignment inRange⟩
  · cases sizes with
    | nil => cases count
    | cons size sizes =>
      have within (row : List Nat) (mem : row ∈ rows) : row.length = parents.length :=
        ((listed row).mp mem).length_eq.trans (Nat.succ.inj count)
      rw [foldlM_addRow within, ← same]
      -- both ways set the same entries, each once, so their order does not matter
      refine congrArg Except.ok (setAll_congr (nodup_keys_rows nodup)
        (keys_denseEntries full ▸ nodup_assignments _) fun (assignment, p) => ?_)
      rw [mem_denseEntries, same]
      refine (mem_flatMap_rowEntries listed).trans (and_congr_right fun inRange => ?_)
      rw [given assignment inRange, Option.some.injEq]

theorem ofDense_enumerates_weather :
    let sizes := [2, 3]
    let probabilities : List Rat := [1 / 100, 2 / 5, 1 / 2, 99 / 100, 3 / 5, 1 / 2]
    (∀ leading, leading <+: sizes → leading.prod < UInt64.size) ∧
      ∃ t, ofDense "Sprinkler" ["Weather"] sizes probabilities = .ok t ∧
        t.entry [1, 0] = 99 / 100 ∧ [3, 0] ∉ t.entries ∧
        [[2], [0], [1]].foldlM (fun t' row => t'.addRow row (t.column 2 row))
          (empty "Sprinkler" ["Weather"]) = .ok t := by
  intro sizes probabilities
  have fits : ∀ leading, leading <+: sizes → leading.prod < UInt64.size := by
    simp only [← List.mem_inits]
    decide
  obtain ⟨-, succeeds, made⟩ := ofDense_enumerates "Sprinkler" ["Weather"] sizes probabilities
  obtain ⟨t, run⟩ := succeeds fits ⟨rfl, rfl⟩
  obtain ⟨entries, given, rows⟩ := made t run
  have order : [[2], [0], [1]].Perm (assignments [3]) := by decide
  refine ⟨fits, t, run, ?_, fun outside => ?_, rows _ (by decide) fun row => ?_⟩
  · have inRange : InRange sizes [1, 0] := mem_assignments.mp (by decide)
    exact (Option.some.inj (given _ inRange)).symm
  · exact absurd (mem_assignments.mpr ((entries _).mp outside)) (by decide)
  · rw [order.mem_iff, mem_assignments]
    rfl

theorem ofDense_overflows :
    let sizes := [2 ^ 63, 2, 0]
    sizes.prod < UInt64.size ∧ sizes.length = ["A", "B"].length + 1 ∧
      ([] : List Rat).length = sizes.prod ∧
      ¬∃ t, ofDense "H" ["A", "B"] sizes ([] : List Rat) = .ok t := by
  refine ⟨by decide, rfl, by decide, fun ⟨t, made⟩ => ?_⟩
  have refused : ofDense "H" ["A", "B"] [2 ^ 63, 2, 0] ([] : List Rat) =
      .error (.fault .productOverflow) := rfl
  cases refused.symm.trans made

end ConditionalTable

end BayesDiagram
