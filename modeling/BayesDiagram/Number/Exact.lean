import BayesDiagram.Number.Arithmetic

/-! Exact rational arithmetic: every scalar and every coefficient is a rational number, nothing
rounds, and words name a number by its numerator and denominator. -/
namespace BayesDiagram

instance : Scalar Rat where
  zero := 0
  one := 1
  natCast n := (n : Rat)
  ofScientific mantissa negative exponent := OfScientific.ofScientific mantissa negative exponent
  decideLT := inferInstance
  decideLE := inferInstance
  isFinite _ := true

namespace Exact

def roundHalfAway (x : Rat) : Int :=
  if 0 ≤ x then (x + 1 / 2).floor else -(1 / 2 - x).floor

def quantize (quantum x : Rat) : Int64 :=
  Int64.ofInt
    (max Int64.minValue.toInt (min (roundHalfAway (x / quantum)) Int64.maxValue.toInt))

/-- Even for a numerator that is not negative, odd for a negative one. -/
def integerWord : Int → Nat
  | .ofNat n => 2 * n
  | .negSucc n => 2 * n + 1

theorem integerWord_injective {a b : Int} (equal : integerWord a = integerWord b) : a = b := by
  cases a <;> cases b <;> simp only [integerWord] at equal <;> first | omega | (congr 1; omega)

def words (x : Rat) : Nat × Nat :=
  (integerWord x.num, x.den)

theorem words_injective {x y : Rat} (equal : words x = words y) : x = y :=
  Rat.ext (integerWord_injective (congrArg Prod.fst equal)) (congrArg Prod.snd equal)

def near (tolerance x y : Rat) : Bool :=
  x - y ≤ tolerance && y - x ≤ tolerance

@[simp] theorem near_zero (x y : Rat) : near 0 x y = true ↔ x = y := by
  simp only [near, Bool.and_eq_true, decide_eq_true_eq]
  constructor
  · intro h
    grind
  · rintro rfl
    grind

end Exact

instance : Coefficient Rat Rat where
  zero := 0
  one := 1
  add := (· + ·)
  sub := (· - ·)
  mul := (· * ·)
  div := (· / ·)
  neg x := -x
  lt := (· < ·)
  le := (· ≤ ·)
  decideLT := inferInstance
  decideLE := inferInstance
  ofScalar := id
  toScalar := id
  isZero x := x == 0
  round _ := id
  near := Exact.near
  quantize := Exact.quantize
  words := Exact.words

end BayesDiagram
