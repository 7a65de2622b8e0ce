import BayesDiagram.Number.Arithmetic
import BayesDiagram.Number.Binary64

/-! Double-double numbers: unevaluated sums `high + low` of two binary64 numbers, about 106 bits
wide. Sums and products are built from the exact error of one rounded operation. -/
namespace BayesDiagram

instance : Scalar Binary64 where
  zero := 0
  one := 1
  natCast := Nat.cast
  ofScientific := OfScientific.ofScientific
  decideLT := inferInstance
  decideLE := inferInstance
  isFinite := Binary64.isFinite

structure DoubleDouble where
  high : Binary64
  low : Binary64

namespace DoubleDouble

def twoSum (a b : Binary64) : Binary64 × Binary64 :=
  let s := a + b
  let bb := s - a
  (s, (a - (s - bb)) + (b - bb))

/-- The rounded sum and its error, for `|a| ≥ |b|`. -/
def quickTwoSum (a b : Binary64) : Binary64 × Binary64 :=
  let s := a + b
  (s, b - (s - a))

def twoProduct (a b : Binary64) : Binary64 × Binary64 :=
  let p := a * b
  (p, Binary64.fusedMulAdd a b (-p))

def ofBinary64 (x : Binary64) : DoubleDouble :=
  ⟨x, 0⟩

/-- An infinite or undefined leading part stands alone: its error terms mean nothing. -/
def finiteOr (high low : Binary64) : DoubleDouble :=
  if high.isFinite then ⟨high, low⟩ else ⟨high, 0⟩

def ofParts (high low : Binary64) : DoubleDouble :=
  let (high, low) := quickTwoSum high low
  finiteOr high low

def toBinary64 (x : DoubleDouble) : Binary64 :=
  x.high + x.low

def isZero (x : DoubleDouble) : Bool :=
  x.high == 0

def isFinite (x : DoubleDouble) : Bool :=
  x.high.isFinite

def neg (x : DoubleDouble) : DoubleDouble :=
  ⟨-x.high, -x.low⟩

def add (x y : DoubleDouble) : DoubleDouble :=
  let (s, e) := twoSum x.high y.high
  if !s.isFinite then ofBinary64 s
  else
    let (t, f) := twoSum x.low y.low
    let (s, e) := quickTwoSum s (e + t)
    let (s, e) := quickTwoSum s (e + f)
    finiteOr s e

def sub (x y : DoubleDouble) : DoubleDouble :=
  x.add y.neg

def mul (x y : DoubleDouble) : DoubleDouble :=
  let (p, e) := twoProduct x.high y.high
  if !p.isFinite then ofBinary64 p
  else
    let (p, e) := quickTwoSum p (e + (x.high * y.low + x.low * y.high))
    finiteOr p e

def div (x y : DoubleDouble) : DoubleDouble :=
  let q₁ := x.high / y.high
  if !q₁.isFinite || y.high == 0 then ofBinary64 q₁
  else
    let r := x.sub (y.mul (ofBinary64 q₁))
    let q₂ := r.high / y.high
    let r := r.sub (y.mul (ofBinary64 q₂))
    let q₃ := r.high / y.high
    let (q₁, q₂) := quickTwoSum q₁ q₂
    add ⟨q₁, q₂⟩ (ofBinary64 q₃)

def abs (x : DoubleDouble) : DoubleDouble :=
  if x.high < 0 || (x.high == 0 && x.low < 0) then x.neg else x

def equals (x y : DoubleDouble) : Bool :=
  x.high == y.high && x.low == y.low

def compare? (x y : DoubleDouble) : Option Ordering :=
  match x.high.compare? y.high with
  | some .eq => x.low.compare? y.low
  | order => order

def round : Precision → DoubleDouble → DoubleDouble
  | .double, x => ofBinary64 x.toBinary64
  | .doubleDouble, x => x

def near (tolerance : Binary64) (x y : DoubleDouble) : Bool :=
  x.equals y || (x.sub y).abs.high ≤ tolerance

/-- The nearest grid index, kept within 64 bits; an undefined one counts as the least. -/
def quantize (quantum : Binary64) (x : DoubleDouble) : Int64 :=
  let q := x.toBinary64 / quantum
  if q.isNaN then Int64.minValue
  else if !q.isFinite then if q < 0 then Int64.minValue else Int64.maxValue
  else Int64.ofInt
    (max Int64.minValue.toInt (min (Binary64.roundHalfAway q) Int64.maxValue.toInt))

def words (x : DoubleDouble) : Nat × Nat :=
  (x.high.word.toNat, x.low.word.toNat)

end DoubleDouble

instance : Coefficient Binary64 DoubleDouble where
  zero := .ofBinary64 0
  one := .ofBinary64 1
  add := .add
  sub := .sub
  mul := .mul
  div := .div
  neg := .neg
  lt x y := x.compare? y = some .lt
  le x y := x.compare? y = some .lt ∨ x.compare? y = some .eq
  decideLT _ _ := inferInstanceAs (Decidable (_ = _))
  decideLE _ _ := inferInstanceAs (Decidable (_ ∨ _))
  ofScalar := .ofBinary64
  toScalar := DoubleDouble.toBinary64
  isZero := DoubleDouble.isZero
  round := .round
  near := DoubleDouble.near
  quantize := DoubleDouble.quantize
  words := DoubleDouble.words

end BayesDiagram
