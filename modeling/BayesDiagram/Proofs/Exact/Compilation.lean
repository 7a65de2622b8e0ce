import Mathlib.Algebra.Order.Field.Rat
import BayesDiagram.Proofs.Exact.Pointwise
import BayesDiagram.Proofs.Inference.Compilation

/-! Compiled tables as functions. Neither construction gives any probability to a code that is no
value of the head. -/
namespace BayesDiagram

variable {config : StoreConfig Rat} {noTolerance : config.tolerance = 0}

def Meaning.pointwise (noTolerance : config.tolerance = 0) :
    Meaning (Reading.exact noTolerance) ((Bit → Bool) → Rat) where
  of d a := d.value a
  tree t a := t.select a
  combine op f g a := op.compute (f a) (g a)
  of_stored := @Diagram.Stored.function_eq config noTolerance
  of_constant value := funext fun _ => Diagram.value_constant value
  of_branches built := funext (Reading.value_of_branches built)
  of_combines combines := funext combines

namespace Compiler

variable {c : Compiler Rat} {t : ConditionalTable Rat} {name : String} {a : Bit → Bool}

def spelled (c : Compiler Rat) (name : String) (a : Bit → Bool) : Nat :=
  Encoding.ofDigits ((c.encoding.bitsOf name).map a)

theorem enumeration_pointwise :
    tableOf (Meaning.pointwise noTolerance) c t .enumeration a =
      t.entry (t.scope.map (c.spelled · a)) := by
  refine (DecisionTree.select_complete _ _ a).trans ?_
  rw [decode_sortedBits]
  rfl

theorem valuesOf_pointwise (valueAt : Nat → Rat) :
    valuesOf (Meaning.pointwise noTolerance) c name valueAt a =
      if c.spelled name a < c.network.arityOf name then valueAt (c.spelled name a) else 0 :=
  DecisionTree.select_complete _ _ a

theorem stepsOf_outside (outside : c.network.arityOf t.head ≤ c.spelled t.head a)
    (values : List Nat) (start : ((Bit → Bool) → Rat) × ((Bit → Bool) → Rat)) :
    (stepsOf (Meaning.pointwise noTolerance) c t values start).1 a = start.1 a := by
  induction values generalizing start with
  | nil => rfl
  | cons i values ih =>
    refine (ih _).trans ?_
    show start.1 a + valuesOf (Meaning.pointwise noTolerance) c t.head _ a * _ = start.1 a
    rw [valuesOf_pointwise, if_neg (Nat.not_lt.mpr outside), zero_mul, add_zero]

theorem tableOf_outside (outside : c.network.arityOf t.head ≤ c.spelled t.head a)
    (fits : ∀ value parents, value :: parents ∈ t.entries → value < c.network.arityOf t.head)
    (strategy : Strategy) : tableOf (Meaning.pointwise noTolerance) c t strategy a = 0 := by
  cases strategy with
  | enumeration =>
    rw [enumeration_pointwise]
    refine Std.ExtTreeMap.getD_eq_fallback fun mem => ?_
    exact absurd (fits _ _ mem) (Nat.not_lt.mpr outside)
  | noisyMax => exact stepsOf_outside outside _ _

end Compiler

end BayesDiagram
