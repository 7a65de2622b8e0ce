import BayesDiagram.Number.Binary64

/-! Decimal texts of numbers: the fewest digits that read back as the same binary64 number, and a
fixed count of places. Both are positional, without exponents. -/
namespace BayesDiagram

class DecimalText (σ : Type) where
  shortest : σ → String
  fixed : Nat → σ → String

namespace Decimal

def tenTo (n : Nat) : Nat :=
  Nat.pow 10 n

def placed (digits places : Nat) : String :=
  if places = 0 then toString digits
  else
    let fraction := toString (digits % tenTo places)
    toString (digits / tenTo places) ++ "." ++
      "".pushn '0' (places - fraction.length) ++ fraction

def positional (digits : Nat) (exponent : Int) : String :=
  placed (digits * tenTo exponent.toNat) (-exponent).toNat

def digitCount (n : Nat) : Nat :=
  (Nat.toDigits 10 n).length

def leadingExponent (numerator denominator : Nat) : Int :=
  if denominator ≤ numerator then digitCount (numerator / denominator) - 1
  else -digitCount ((denominator - 1) / numerator)

/-- Four times the distance of `digits * 10 ^ grid` from `mantissa * 2 ^ exponent`, signed, and
four times the unit `2 ^ exponent`, over one common denominator. -/
def offset (mantissa : Nat) (exponent : Int) (grid : Int) (digits : Nat) : Int × Nat :=
  let unit := tenTo (-grid).toNat <<< exponent.toNat
  let value := (4 * digits * tenTo grid.toNat) <<< (-exponent).toNat
  ((value : Int) - (4 * mantissa * unit : Nat), unit)

/-- Whether a number at that distance reads back as `mantissa * 2 ^ exponent`. The interval of
such numbers reaches half a unit to both sides, a quarter below a power of two, and has its ends
exactly for an even mantissa. -/
def readsBack (mantissa : Nat) (exponent : Int) : Int × Nat → Bool
  | (distance, unit) =>
    let below : Nat := if mantissa = Binary64.hiddenBit ∧ -1074 < exponent then unit else 2 * unit
    if mantissa % 2 = 0 then -(below : Int) ≤ distance ∧ distance ≤ (2 * unit : Nat)
    else -(below : Int) < distance ∧ distance < (2 * unit : Nat)

def neighbour? (mantissa : Nat) (exponent grid : Int) : Option Nat :=
  let lower := mantissa <<< exponent.toNat * tenTo (-grid).toNat /
    tenTo grid.toNat <<< (-exponent).toNat
  let down := offset mantissa exponent grid lower
  let up := offset mantissa exponent grid (lower + 1)
  match readsBack mantissa exponent down, readsBack mantissa exponent up with
  | true, true => some (if down.1.natAbs < up.1.natAbs then lower else lower + 1)
  | true, false => some lower
  | false, true => some (lower + 1)
  | false, false => none

/-- The fewest digits that read back as the positive number `mantissa * 2 ^ exponent`, with their
decimal exponent. Seventeen digits always suffice; ten is the only answer that ends in zero. -/
def shortestDigits (mantissa : Nat) (exponent : Int) : Nat × Int :=
  let leading := leadingExponent (mantissa <<< exponent.toNat) (1 <<< (-exponent).toNat)
  let found := (List.range 17).findSome? fun (n : Nat) =>
    let grid := leading - (n : Int)
    (neighbour? mantissa exponent grid).map fun digits => (digits, grid)
  match found with
  | some (10, grid) => (1, grid + 1)
  | some answer => answer
  | none => (0, 0)

def signed (x : Binary64) (text : Nat → Int → String) : String :=
  if x.isNaN then "NaN"
  else
    let sign := if x.isNegative then "-" else ""
    if !x.isFinite then sign ++ "inf"
    else
      let (mantissa, exponent) := x.magnitude
      sign ++ text mantissa exponent

def shortest (x : Binary64) : String :=
  signed x fun mantissa exponent =>
    if mantissa = 0 then "0"
    else
      let (digits, grid) := shortestDigits mantissa exponent
      positional digits grid

def fixed (places : Nat) (x : Binary64) : String :=
  signed x fun mantissa exponent =>
    placed (Binary64.roundHalfEven ((mantissa * tenTo places) <<< exponent.toNat)
      (1 <<< (-exponent).toNat)) places

end Decimal

instance : DecimalText Binary64 where
  shortest := Decimal.shortest
  fixed := Decimal.fixed

end BayesDiagram
