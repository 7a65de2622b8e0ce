import BayesDiagram.Number.Exact

/-! Machine numbers with the finite ones read exactly: a rational number, an infinity, or no number
at all. Zero has no sign here, and counts as positive where a quotient asks for one. -/
namespace BayesDiagram

inductive Extended where
  | finite (x : Rat)
  | infinite (negative : Bool)
  | undefined
deriving DecidableEq, Repr

namespace Extended

def neg : Extended → Extended
  | finite x => finite (-x)
  | infinite negative => infinite !negative
  | undefined => undefined

def add : Extended → Extended → Extended
  | finite x, finite y => finite (x + y)
  | finite _, infinite negative | infinite negative, finite _ => infinite negative
  | infinite first, infinite second => if first = second then infinite first else undefined
  | undefined, _ | _, undefined => undefined

def mul : Extended → Extended → Extended
  | finite x, finite y => finite (x * y)
  | finite x, infinite negative | infinite negative, finite x =>
    if x = 0 then undefined else infinite (negative ^^ decide (x < 0))
  | infinite first, infinite second => infinite (first ^^ second)
  | undefined, _ | _, undefined => undefined

def div : Extended → Extended → Extended
  | finite x, finite y =>
    if y ≠ 0 then finite (x / y) else if x = 0 then undefined else infinite (x < 0)
  | finite _, infinite _ => finite 0
  | infinite negative, finite y => infinite (negative ^^ decide (y < 0))
  | infinite _, infinite _ | undefined, _ | _, undefined => undefined

def less : Extended → Extended → Bool
  | finite x, finite y => x < y
  | finite _, infinite negative => !negative
  | infinite negative, finite _ => negative
  | infinite first, infinite second => first && !second
  | undefined, _ | _, undefined => false

def toRat : Extended → Rat
  | finite x => x
  | infinite _ | undefined => 0

end Extended

instance : Scalar Extended where
  zero := .finite 0
  one := .finite 1
  add := Extended.add
  sub x y := x.add y.neg
  mul := Extended.mul
  div := Extended.div
  neg := Extended.neg
  lt x y := x.less y = true
  le x y := x.less y = true ∨ x = y ∧ x ≠ .undefined
  natCast n := .finite n
  ofScientific mantissa negative exponent :=
    .finite (OfScientific.ofScientific mantissa negative exponent)
  decideLT _ _ := inferInstanceAs (Decidable (_ = _))
  decideLE _ _ := inferInstanceAs (Decidable (_ ∨ _))
  isFinite
    | .finite _ => true
    | .infinite _ | .undefined => false

/-! ### Exact readings -/

/-- A reading of finite scalars as rational numbers, exact on what tests of scalars ask for. -/
class RationalReading (σ : Type) [Scalar σ] where
  toRat : σ → Rat
  zero : Scalar.isFinite (0 : σ) = true ∧ toRat 0 = 0
  one : Scalar.isFinite (1 : σ) = true ∧ toRat 1 = 1
  decimal (mantissa : Nat) (negative : Bool) (exponent : Nat) :
    let x : σ := OfScientific.ofScientific mantissa negative exponent
    Scalar.isFinite x = true ∧ toRat x = OfScientific.ofScientific mantissa negative exponent
  neg {x : σ} : Scalar.isFinite x = true → Scalar.isFinite (-x) = true ∧ toRat (-x) = -toRat x
  add {x y : σ} : Scalar.isFinite x = true → Scalar.isFinite y = true →
    Scalar.isFinite (x + y) = true ∧ toRat (x + y) = toRat x + toRat y
  sub {x y : σ} : Scalar.isFinite x = true → Scalar.isFinite y = true →
    Scalar.isFinite (x - y) = true ∧ toRat (x - y) = toRat x - toRat y
  lt {x y : σ} : Scalar.isFinite x = true → Scalar.isFinite y = true →
    (x < y ↔ toRat x < toRat y)
  le {x y : σ} : Scalar.isFinite x = true → Scalar.isFinite y = true →
    (x ≤ y ↔ toRat x ≤ toRat y)

instance : RationalReading Rat where
  toRat := id
  zero := ⟨rfl, rfl⟩
  one := ⟨rfl, rfl⟩
  decimal _ _ _ := ⟨rfl, rfl⟩
  neg _ := ⟨rfl, rfl⟩
  add _ _ := ⟨rfl, rfl⟩
  sub _ _ := ⟨rfl, rfl⟩
  lt _ _ := .rfl
  le _ _ := .rfl

namespace Extended

theorem exists_of_isFinite {x : Extended} (isFinite : Scalar.isFinite x = true) :
    ∃ q, x = finite q := by
  cases x with
  | finite q => exact ⟨q, rfl⟩
  | infinite => cases isFinite
  | undefined => cases isFinite

theorem finite_lt {x y : Rat} : finite x < finite y ↔ x < y :=
  decide_eq_true_iff

theorem finite_le {x y : Rat} : finite x ≤ finite y ↔ x ≤ y := by
  show finite x < finite y ∨ finite x = finite y ∧ finite x ≠ undefined ↔ _
  rw [finite_lt, finite.injEq, Rat.le_iff_lt_or_eq]
  exact ⟨Or.imp_right And.left, Or.imp_right fun same => ⟨same, nofun⟩⟩

end Extended

instance : RationalReading Extended where
  toRat := Extended.toRat
  zero := ⟨rfl, rfl⟩
  one := ⟨rfl, rfl⟩
  decimal _ _ _ := ⟨rfl, rfl⟩
  neg := by
    intro x isFinite
    obtain ⟨p, rfl⟩ := Extended.exists_of_isFinite isFinite
    exact ⟨rfl, rfl⟩
  add := by
    intro x y isFinite isFinite'
    obtain ⟨p, rfl⟩ := Extended.exists_of_isFinite isFinite
    obtain ⟨q, rfl⟩ := Extended.exists_of_isFinite isFinite'
    exact ⟨rfl, rfl⟩
  sub := by
    intro x y isFinite isFinite'
    obtain ⟨p, rfl⟩ := Extended.exists_of_isFinite isFinite
    obtain ⟨q, rfl⟩ := Extended.exists_of_isFinite isFinite'
    exact ⟨rfl, (Rat.sub_eq_add_neg p q).symm⟩
  lt := by
    intro x y isFinite isFinite'
    obtain ⟨p, rfl⟩ := Extended.exists_of_isFinite isFinite
    obtain ⟨q, rfl⟩ := Extended.exists_of_isFinite isFinite'
    exact Extended.finite_lt
  le := by
    intro x y isFinite isFinite'
    obtain ⟨p, rfl⟩ := Extended.exists_of_isFinite isFinite
    obtain ⟨q, rfl⟩ := Extended.exists_of_isFinite isFinite'
    exact Extended.finite_le

end BayesDiagram
