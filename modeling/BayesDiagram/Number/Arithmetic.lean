/-! The two number systems of a diagram: the scalars of probability tables and tolerances, and
the coefficients on diagram edges. Both are left open, so that the same definitions run on
machine numbers and are read over exact ones; no law is asked of either. -/
namespace BayesDiagram

inductive Precision where
  | double
  | doubleDouble
deriving DecidableEq, Repr

class Scalar (σ : Type) extends Zero σ, One σ, Add σ, Sub σ, Mul σ, Div σ, Neg σ, LT σ, LE σ,
    NatCast σ, OfScientific σ where
  decideLT : DecidableLT σ
  decideLE : DecidableLE σ
  isFinite : σ → Bool

attribute [reducible, instance] Scalar.decideLT Scalar.decideLE

/-- Numbers on the edges of a diagram over scalars `σ`. -/
class Coefficient (σ : outParam Type) (κ : Type) extends Zero κ, One κ, Add κ, Sub κ, Mul κ,
    Div κ, Neg κ, LT κ, LE κ where
  decideLT : DecidableLT κ
  decideLE : DecidableLE κ
  ofScalar : σ → κ
  toScalar : κ → σ
  isZero : κ → Bool
  round : Precision → κ → κ
  near : σ → κ → κ → Bool
  /-- The index of the grid cell, of a given width, that holds a coefficient. -/
  quantize : σ → κ → Int64
  /-- The two words that name a coefficient exactly. -/
  words : κ → Nat × Nat

attribute [reducible, instance] Coefficient.decideLT Coefficient.decideLE

namespace Coefficient

variable {σ κ : Type} [Coefficient σ κ]

/-- The smaller of two coefficients, the first one where they do not compare. -/
def least (a b : κ) : κ :=
  if b < a then b else a

def greatest (a b : κ) : κ :=
  if a < b then b else a

def reciprocal (a : κ) : κ :=
  1 / a

end Coefficient

end BayesDiagram
