/-! Binary64 numbers by their bits. Arithmetic is that of the machine on everything but undefined
numbers, which keep their bits: a sign and a payload that tell them apart. Beside it stand the
numbers as integers scaled by powers of two, and the exactly rounded operations that are built on
that view: rounding of a scaled integer, the fused multiply-add, and the nearest integer with
halves away from zero. -/
namespace BayesDiagram

structure Binary64 where
  bits : UInt64

namespace Binary64

def ofMachine (x : Float) : Binary64 :=
  ⟨x.toBits⟩

def toMachine (x : Binary64) : Float :=
  Float.ofBits x.bits

def signBit : UInt64 :=
  0x8000000000000000

/-- The bits of positive infinity. Greater ones, the sign left out, are undefined. -/
def infinityBits : UInt64 :=
  0x7ff0000000000000

def quietBit : UInt64 :=
  0x0008000000000000

def isNegative (x : Binary64) : Bool :=
  x.bits &&& signBit != 0

def isFinite (x : Binary64) : Bool :=
  x.bits &&& ~~~signBit < infinityBits

def isNaN (x : Binary64) : Bool :=
  infinityBits < x.bits &&& ~~~signBit

def quiet (x : Binary64) : Binary64 :=
  ⟨x.bits ||| quietBit⟩

def undefined : Binary64 :=
  ⟨signBit ||| infinityBits ||| quietBit⟩

/-- An operation of the machine. Of undefined operands the first one is the answer. -/
def lift (operation : Float → Float → Float) (x y : Binary64) : Binary64 :=
  if x.isNaN then x.quiet
  else if y.isNaN then y.quiet
  else
    let answer := ofMachine (operation x.toMachine y.toMachine)
    if answer.isNaN then undefined else answer

instance : Add Binary64 := ⟨lift (· + ·)⟩

instance : Sub Binary64 := ⟨lift (· - ·)⟩

instance : Mul Binary64 := ⟨lift (· * ·)⟩

instance : Div Binary64 := ⟨lift (· / ·)⟩

instance : Neg Binary64 := ⟨fun x => ⟨x.bits ^^^ signBit⟩⟩

instance : Zero Binary64 := ⟨⟨0⟩⟩

instance : One Binary64 := ⟨ofMachine 1⟩

instance : NatCast Binary64 := ⟨fun n => ofMachine (Float.ofNat n)⟩

instance : OfScientific Binary64 where
  ofScientific mantissa negative exponent :=
    ofMachine (Float.ofScientific mantissa negative exponent)

instance : BEq Binary64 := ⟨fun x y => x.toMachine == y.toMachine⟩

instance : LT Binary64 := ⟨fun x y => x.toMachine < y.toMachine⟩

instance : LE Binary64 := ⟨fun x y => x.toMachine ≤ y.toMachine⟩

instance (x y : Binary64) : Decidable (x < y) :=
  inferInstanceAs (Decidable (x.toMachine < y.toMachine))

instance (x y : Binary64) : Decidable (x ≤ y) :=
  inferInstanceAs (Decidable (x.toMachine ≤ y.toMachine))

def compare? (x y : Binary64) : Option Ordering :=
  if x < y then some .lt else if x == y then some .eq else if y < x then some .gt else none

/-- The bits, with one name for both zeros. -/
def word (x : Binary64) : UInt64 :=
  if x == 0 then 0 else x.bits

structure Scaled where
  mantissa : Int
  exponent : Int
deriving DecidableEq, Repr

namespace Scaled

def mantissaAt (x : Scaled) (exponent : Int) : Int :=
  x.mantissa * (1 <<< (x.exponent - exponent).toNat : Nat)

def mul (x y : Scaled) : Scaled :=
  ⟨x.mantissa * y.mantissa, x.exponent + y.exponent⟩

def add (x y : Scaled) : Scaled :=
  let exponent := min x.exponent y.exponent
  ⟨x.mantissaAt exponent + y.mantissaAt exponent, exponent⟩

end Scaled

def hiddenBit : Nat :=
  4503599627370496

/-- The finite number `x` as `m * 2 ^ q` with `m < 2 ^ 53`, sign left out. -/
def magnitude (x : Binary64) : Nat × Int :=
  let bits : Nat := x.bits.toNat
  let fraction : Nat := bits % hiddenBit
  let biased : Nat := bits / hiddenBit % 2048
  if biased = 0 then (fraction, -1074) else (fraction + hiddenBit, (biased : Int) - 1075)

def toScaled (x : Binary64) : Scaled :=
  let (mantissa, exponent) := magnitude x
  ⟨if isNegative x then -(mantissa : Int) else mantissa, exponent⟩

def roundHalfEven (numerator denominator : Nat) : Nat :=
  let quotient := numerator / denominator
  let twice := 2 * (numerator % denominator)
  if twice < denominator then quotient
  else if denominator < twice then quotient + 1
  else quotient + quotient % 2

/-- The bits of the number nearest to `mantissa * 2 ^ exponent`, halves to the even neighbour.
Normal and subnormal numbers count up without a gap, so a mantissa that rounds up to the next
power of two carries into the exponent by itself. -/
def nearestBits (mantissa : Nat) (exponent : Int) : Nat :=
  if mantissa = 0 then 0
  else
    let unit := max (exponent + mantissa.log2 - 52) (-1074)
    let rounded :=
      if unit ≤ exponent then mantissa <<< (exponent - unit).toNat
      else roundHalfEven mantissa (1 <<< (unit - exponent).toNat)
    min ((unit + 1074).toNat * hiddenBit + rounded) (2047 * hiddenBit)

/-- The number nearest to a scaled integer that is not zero; `+0` for zero. -/
def ofScaled (x : Scaled) : Binary64 :=
  let bits := (nearestBits x.mantissa.natAbs x.exponent).toUInt64
  ⟨if x.mantissa < 0 then bits ||| signBit else bits⟩

def fusedMulAdd (a b c : Binary64) : Binary64 :=
  if !(a.isFinite && b.isFinite) then a * b + c
  else if !c.isFinite then 0 + c
  else
    let exact := ((toScaled a).mul (toScaled b)).add (toScaled c)
    if exact.mantissa ≠ 0 then ofScaled exact
    else if c == 0 then a * b + c
    else 0

def roundHalfAway (x : Binary64) : Int :=
  let (mantissa, exponent) := magnitude x
  let rounded :=
    if 0 ≤ exponent then mantissa <<< exponent.toNat
    else (mantissa + 1 <<< ((-exponent).toNat - 1)) >>> (-exponent).toNat
  if isNegative x then -(rounded : Int) else rounded

end Binary64

end BayesDiagram
