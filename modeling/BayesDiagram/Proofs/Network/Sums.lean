import Mathlib.Algebra.BigOperators.Field
import Mathlib.Algebra.BigOperators.Group.Finset.Sigma
import Mathlib.Algebra.BigOperators.Ring.Finset
import Mathlib.Algebra.Order.Field.Rat
import Mathlib.Logic.Function.Basic

/-! Sums over the values of variables. A sum runs over one variable after the other; in what order
does not matter. -/
namespace BayesDiagram

abbrev Choice := String → Nat

def sumOver (bound : String → Nat) : List String → (Choice → Rat) → Choice → Rat
  | [], f, v => f v
  | name :: names, f, v =>
    ∑ value ∈ Finset.range (bound name), sumOver bound names f (Function.update v name value)

/-- Choices that a sum over some names reaches from a choice. -/
structure Choice.Within (bound : String → Nat) (names : List String) (v u : Choice) : Prop where
  others : ∀ name ∉ names, u name = v name
  below : ∀ name ∈ names, u name < bound name

variable {bound : String → Nat} {names : List String} {name : String} {f g : Choice → Rat}
  {v : Choice}

theorem Choice.Within.cons {value : Nat} {u : Choice} (below : value < bound name)
    (within : Within bound names (Function.update v name value) u) :
    Within bound (name :: names) v u where
  others other outside := by
    rw [List.mem_cons, not_or] at outside
    rw [within.others other outside.2, Function.update_of_ne outside.1]
  below other mem := by
    by_cases inside : other ∈ names
    · exact within.below other inside
    · obtain rfl := (List.mem_cons.mp mem).resolve_right inside
      rw [within.others other inside, Function.update_self]
      exact below

theorem sumOver_congr (equal : ∀ u, Choice.Within bound names v u → f u = g u) :
    sumOver bound names f v = sumOver bound names g v := by
  induction names generalizing v with
  | nil => exact equal v ⟨fun _ _ => rfl, fun _ mem => absurd mem List.not_mem_nil⟩
  | cons name names ih =>
    refine Finset.sum_congr rfl fun value below => ih fun u within => equal u ?_
    exact within.cons (Finset.mem_range.mp below)

theorem sumOver_bound {bound' : String → Nat} (same : ∀ name ∈ names, bound name = bound' name) :
    sumOver bound names f v = sumOver bound' names f v := by
  induction names generalizing v with
  | nil => rfl
  | cons name names ih =>
    rw [sumOver, sumOver, same name (.head names)]
    exact Finset.sum_congr rfl fun value _ => ih fun other mem => same other (.tail name mem)

theorem sumOver_zero : sumOver bound names (fun _ => 0) v = 0 := by
  induction names generalizing v with
  | nil => rfl
  | cons name names ih => exact Finset.sum_eq_zero fun value _ => ih

theorem sumOver_append (names' : List String) :
    sumOver bound (names ++ names') f v = sumOver bound names (sumOver bound names' f) v := by
  induction names generalizing v with
  | nil => rfl
  | cons name names ih => exact Finset.sum_congr rfl fun value _ => ih

theorem sumOver_update (outside : name ∉ names) (value : Nat) :
    sumOver bound names (fun u => f (Function.update u name value)) v =
      sumOver bound names f (Function.update v name value) := by
  induction names generalizing v with
  | nil => rfl
  | cons first names ih =>
    rw [List.mem_cons, not_or] at outside
    refine Finset.sum_congr rfl fun other _ => ?_
    rw [ih outside.2, Function.update_comm (Ne.symm outside.1)]

theorem sumOver_sum {ι : Type} (range : Finset ι) (term : ι → Choice → Rat) :
    sumOver bound names (fun u => ∑ i ∈ range, term i u) v =
      ∑ i ∈ range, sumOver bound names (term i) v := by
  induction names generalizing v with
  | nil => rfl
  | cons name names ih =>
    simp only [sumOver, ih]
    exact Finset.sum_comm

theorem sumOver_div (divisor : Rat) :
    sumOver bound names (fun u => f u / divisor) v = sumOver bound names f v / divisor := by
  induction names generalizing v with
  | nil => rfl
  | cons name names ih =>
    simp only [sumOver, ih]
    exact (Finset.sum_div _ _ _).symm

theorem sumOver_cons_of_notMem (outside : name ∉ names) :
    sumOver bound names (fun u => ∑ value ∈ Finset.range (bound name),
      f (Function.update u name value)) v = sumOver bound (name :: names) f v := by
  rw [sumOver_sum]
  exact Finset.sum_congr rfl fun value _ => sumOver_update outside value

theorem sumOver_perm {names' : List String} (perm : names.Perm names') :
    sumOver bound names f v = sumOver bound names' f v := by
  induction perm generalizing v with
  | nil => rfl
  | cons name _ ih => exact Finset.sum_congr rfl fun value _ => ih
  | swap first second rest =>
    by_cases same : first = second
    · rw [same]
    · simp only [sumOver]
      rw [Finset.sum_comm]
      refine Finset.sum_congr rfl fun value _ => Finset.sum_congr rfl fun other _ => ?_
      rw [Function.update_comm same]
  | trans _ _ ih ih' => rw [ih, ih']

theorem sumOver_narrow {wide : String → Nat} (nodup : names.Nodup)
    (narrow : ∀ name ∈ names, bound name ≤ wide name)
    (vanishes : ∀ name ∈ names, ∀ u : Choice, bound name ≤ u name → u name < wide name → f u = 0) :
    sumOver wide names f v = sumOver bound names f v := by
  induction names generalizing v with
  | nil => rfl
  | cons name names ih =>
    obtain ⟨fresh, nodup⟩ := List.nodup_cons.mp nodup
    have rest (value : Nat) : sumOver wide names f (Function.update v name value) =
        sumOver bound names f (Function.update v name value) :=
      ih nodup (fun other mem => narrow other (.tail name mem))
        fun other mem => vanishes other (.tail name mem)
    simp only [sumOver, rest]
    refine (Finset.sum_subset (Finset.range_subset_range.mpr (narrow name (.head names)))
      fun value inWide beyond => ?_).symm
    rw [Finset.mem_range] at inWide
    rw [Finset.mem_range, not_lt] at beyond
    refine (sumOver_congr fun u within => ?_).trans sumOver_zero
    have here : u name = value := by rw [within.others name fresh, Function.update_self]
    exact vanishes name (.head names) u (here ▸ beyond) (here ▸ inWide)

end BayesDiagram
