import Mathlib.Algebra.BigOperators.Group.Finset.Basic
import Mathlib.Algebra.Order.Field.Rat
import Mathlib.Algebra.Order.Group.Abs
import BayesDiagram.Number.Extended
import BayesDiagram.Proofs.Network.Validation

/-! The rows of a table. Their sums are read exactly, in whatever order the entries are added up.
Over exact numbers the entries of a valid table are probabilities, and every row with an entry sums
up to one within the tolerance. -/
namespace BayesDiagram

namespace Network

/-! ### Sums of rows -/

section

variable {σ : Type} [Scalar σ] {t : ConditionalTable σ} {entries : List (List Nat × σ)}
  {sums : Std.ExtTreeMap (List Nat) σ} {row : List Nat}

def addEntry (sums : Std.ExtTreeMap (List Nat) σ) (entry : List Nat × σ) :
    Std.ExtTreeMap (List Nat) σ :=
  sums.insert entry.1.tail (sums.getD entry.1.tail 0 + entry.2)

theorem rowSums_eq_foldl : rowSums t = t.entries.toList.foldl addEntry ∅ :=
  Std.ExtTreeMap.foldl_eq_foldl_toList

theorem mem_foldl_addEntry : row ∈ entries.foldl addEntry sums ↔
    row ∈ sums ∨ ∃ assignment ∈ entries.map Prod.fst, assignment.tail = row := by
  induction entries generalizing sums with
  | nil => simp
  | cons entry entries ih =>
    rw [List.foldl_cons, ih]
    simp [addEntry, Std.ExtTreeMap.mem_insert, or_left_comm, or_assoc]

theorem mem_rowTotals (perm : entries.Perm t.entries.toList) :
    row ∈ entries.foldl addEntry ∅ ↔ ∃ assignment ∈ t.entries, assignment.tail = row := by
  simp [mem_foldl_addEntry, (perm.map Prod.fst).mem_iff, Std.ExtTreeMap.map_fst_toList_eq_keys]

variable [RationalReading σ]

open RationalReading

theorem foldl_addEntry (start : Scalar.isFinite (sums.getD row 0) = true)
    (finite : ∀ entry ∈ entries, Scalar.isFinite entry.2 = true) :
    let total := (entries.foldl addEntry sums).getD row 0
    Scalar.isFinite total = true ∧ toRat total = toRat (sums.getD row 0) +
      ((entries.filter (·.1.tail = row)).map fun entry => toRat entry.2).sum := by
  induction entries generalizing sums with
  | nil => exact ⟨start, (add_zero _).symm⟩
  | cons entry entries ih =>
    obtain ⟨here, later⟩ := List.forall_mem_cons.mp finite
    by_cases own : entry.1.tail = row
    · have taken : (addEntry sums entry).getD row 0 = sums.getD row 0 + entry.2 := by
        rw [addEntry, own, Std.ExtTreeMap.getD_insert_self]
      obtain ⟨isFinite, sum⟩ := RationalReading.add start here
      obtain ⟨isFinite', total⟩ := ih (taken ▸ isFinite) later
      refine ⟨isFinite', total.trans ?_⟩
      rw [taken, sum]
      simp [own, add_assoc]
    · have kept : (addEntry sums entry).getD row 0 = sums.getD row 0 := by
        rw [addEntry, Std.ExtTreeMap.getD_insert, if_neg (by simpa using own)]
      obtain ⟨isFinite', total⟩ := ih (kept ▸ start) later
      refine ⟨isFinite', total.trans ?_⟩
      rw [kept]
      simp [own]

theorem rowTotals_eq_sum {arity : Nat} (perm : entries.Perm t.entries.toList)
    (inhabited : [] ∉ t.entries) (below : ∀ value, value :: row ∈ t.entries → value < arity)
    (finite : ∀ (assignment : List Nat) (p : σ), t.entries[assignment]? = some p →
      Scalar.isFinite p = true) :
    let total := (entries.foldl addEntry ∅).getD row 0
    Scalar.isFinite total = true ∧
      toRat total = ∑ value ∈ Finset.range arity, toRat (t.entry (value :: row)) := by
  have none : (∅ : Std.ExtTreeMap (List Nat) σ).getD row 0 = 0 := Std.ExtTreeMap.getD_empty
  have start : Scalar.isFinite ((∅ : Std.ExtTreeMap (List Nat) σ).getD row 0) = true :=
    none ▸ zero.1
  have added (entry : List Nat × σ) (mem : entry ∈ entries) : Scalar.isFinite entry.2 = true :=
    finite entry.1 entry.2 (Std.ExtTreeMap.mem_toList_iff_getElem?_eq_some.mp (perm.mem_iff.mp mem))
  obtain ⟨isFinite, total⟩ := foldl_addEntry start added
  refine ⟨isFinite, total.trans ?_⟩
  have listed : ((entries.filter (·.1.tail = row)).map fun entry => toRat entry.2).sum =
      ((t.entries.keys.filter (·.tail = row)).map fun assignment =>
        toRat (t.entry assignment)).sum := by
    rw [((perm.filter _).map _).sum_eq, ← Std.ExtTreeMap.map_fst_toList_eq_keys, List.filter_map,
      List.map_map]
    refine congrArg List.sum (List.map_congr_left fun entry mem => ?_)
    have found := Std.ExtTreeMap.mem_toList_iff_getElem?_eq_some.mp (List.mem_of_mem_filter mem)
    rw [Function.comp_apply, ConditionalTable.entry, Std.ExtTreeMap.getD_eq_getD_getElem?, found]
    rfl
  have distinct : (t.entries.keys.filter (·.tail = row)).Nodup :=
    Std.ExtTreeMap.nodup_keys.filter _
  have injective : Set.InjOn (· :: row) (Finset.range arity) :=
    fun _ _ _ _ same => (List.cons.inj same).1
  rw [none, zero.2, zero_add, listed, ← List.sum_toFinset _ distinct,
    ← Finset.sum_image (f := fun assignment => toRat (t.entry assignment)) injective]
  refine Finset.sum_subset (fun assignment mem => ?_) fun assignment mem absent => ?_
  · obtain ⟨present, own⟩ : assignment ∈ t.entries ∧ assignment.tail = row := by
      simpa using mem
    cases assignment with
    | nil => exact absurd present inhabited
    | cons value rest =>
      obtain rfl : rest = row := own
      exact Finset.mem_image.mpr ⟨value, Finset.mem_range.mpr (below value present), rfl⟩
  · obtain ⟨value, -, rfl⟩ := Finset.mem_image.mp mem
    have missing : value :: row ∉ t.entries := fun present => absent (by simpa using present)
    rw [ConditionalTable.entry, Std.ExtTreeMap.getD_eq_fallback missing, zero.2]

theorem checkRow_eq_ok {sum : σ} (finite : Scalar.isFinite sum = true) :
    (checkRow t row sum : Except (Error σ) Unit) = .ok () ↔ |toRat sum - 1| ≤ rowTolerance := by
  obtain ⟨toleranceFinite, tolerance⟩ := decimal (σ := σ) 1 true 6
  obtain ⟨isFinite, difference⟩ := RationalReading.sub finite one.1
  obtain ⟨isFinite', negated⟩ := RationalReading.neg toleranceFinite
  have outside : sum - 1 < -rowTolerance ∨ rowTolerance < sum - 1 ↔
      ¬|toRat sum - 1| ≤ rowTolerance := by
    rw [rowTolerance, RationalReading.lt isFinite isFinite',
      RationalReading.lt toleranceFinite isFinite, difference, negated, tolerance, one.2, abs_le,
      not_and_or, not_le, not_le]
    rfl
  rw [checkRow]
  split
  · next far => exact iff_of_false nofun (outside.mp far)
  · next near => exact iff_of_true rfl (not_not.mp (mt outside.mpr near))

end

variable {n : Network Rat} {t : ConditionalTable Rat}

theorem entry_mem_unit (valid : (n.checkTable t : Except (Error Rat) Unit) = .ok ())
    (values : List Nat) : 0 ≤ t.entry values ∧ t.entry values ≤ 1 := by
  obtain ⟨-, declared, -, entries, -⟩ := checkTable_eq_ok valid
  rw [ConditionalTable.entry, Std.ExtTreeMap.getD_eq_getD_getElem?]
  cases found : t.entries[values]? with
  | none => exact ⟨le_refl 0, zero_le_one⟩
  | some p => exact (checkEntry_eq_ok.mp (entries values p found)).2.2

theorem row_total (valid : (n.checkTable t : Except (Error Rat) Unit) = .ok ()) {row : List Nat}
    {value : Nat} (present : value :: row ∈ t.entries) :
    |∑ value ∈ Finset.range (n.arityOf t.head), t.entry (value :: row) - 1| ≤ rowTolerance := by
  obtain ⟨-, -, -, -, rows⟩ := checkTable_eq_ok valid
  have summed : row ∈ rowSums t := by
    rw [rowSums_eq_foldl, mem_rowTotals (.refl _)]
    exact ⟨_, present, rfl⟩
  have total : (rowSums t).getD row 0 =
      ∑ value ∈ Finset.range (n.arityOf t.head), t.entry (value :: row) := by
    rw [rowSums_eq_foldl]
    exact (rowTotals_eq_sum (.refl _) (fun bare => nomatch entry_fits valid bare)
      (fun _ mem => (List.forall₂_cons.mp (entry_fits valid mem)).1) fun _ _ _ => rfl).2
  have checked := (checkRow_eq_ok rfl).mp
    (rows row _ (Std.ExtTreeMap.getElem?_eq_some_getElem summed))
  rw [← total, Std.ExtTreeMap.getD_eq_getD_getElem?,
    Std.ExtTreeMap.getElem?_eq_some_getElem summed, Option.getD_some]
  exact checked

/-- Probabilities for the values of the head under some values of its parents. They sum up to one
within the tolerance if the table has an entry for these. -/
structure IsRow (n : Network Rat) (t : ConditionalTable Rat) (parents : List Nat)
    (p : Nat → Rat) : Prop where
  mem_unit : ∀ head < n.arityOf t.head, 0 ≤ p head ∧ p head ≤ 1
  total : ∀ head, head :: parents ∈ t.entries →
    |∑ head ∈ Finset.range (n.arityOf t.head), p head - 1| ≤ rowTolerance

theorem isRow_entry (valid : (n.checkTable t : Except (Error Rat) Unit) = .ok ())
    (parents : List Nat) : n.IsRow t parents fun head => t.entry (head :: parents) where
  mem_unit head _ := entry_mem_unit valid (head :: parents)
  total _ present := row_total valid present

theorem IsRow.congr {parents : List Nat} {p q : Nat → Rat} (row : n.IsRow t parents p)
    (same : ∀ head < n.arityOf t.head, q head = p head) : n.IsRow t parents q where
  mem_unit head below := by
    rw [same head below]
    exact row.mem_unit head below
  total head present := by
    rw [Finset.sum_congr rfl fun head mem => same head (Finset.mem_range.mp mem)]
    exact row.total head present

end Network

end BayesDiagram
