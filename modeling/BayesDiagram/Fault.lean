/-! Broken preconditions: what stops an operation that was called as its rules forbid. -/
namespace BayesDiagram

inductive Fault where
  | reservedVariable
  | mustPrecedeChildren (bit : Nat)
  | lowNotBelow
  | highNotBelow
  | constantOperands
  | notCounted (bit : Nat)
  | rootNotPinned (root : Nat)
  | terminalChildren
  | cellZero
  | cellOutOfBounds (length index : Nat)
  | cellVacant (index : Nat)
  | negativeTolerance
  | zeroCapacity
  | tooManyBuckets
  | quantumNotPositive
  | alreadyEncoded (name : String)
  | identifiersExhausted
  | productOverflow
  | levelsExhausted
  | rangeStart (start length : Nat)
deriving DecidableEq, Repr

namespace Fault

def message : Fault → String
  | reservedVariable => "Var id 0 is reserved for the terminal"
  | mustPrecedeChildren bit => s!"Variable b{bit} must precede its children"
  | lowNotBelow => "assertion failed: var.level() < self.var_of(&low).level()"
  | highNotBelow => "assertion failed: var.level() < self.var_of(&high).level()"
  | constantOperands => "apply_rec called on two constants"
  | notCounted bit => s!"Variable b{bit} is not among the counted variables"
  | rootNotPinned root => s!"Root #{root} is not pinned"
  | terminalChildren => "The terminal node has no children"
  | cellZero => "assertion `left != right` failed: Index is 0"
  | cellOutOfBounds length index =>
    s!"index out of bounds: the len is {length} but the index is {index}"
  | cellVacant index => s!"Index {index} is not occupied"
  | negativeTolerance => "Epsilon must be non-negative"
  | zeroCapacity => "Capacity must be positive"
  | tooManyBuckets => "Bucket bits should be in the range 0..=31"
  | quantumNotPositive => "Quantum must be positive"
  | alreadyEncoded name => s!"Variable {name} is already encoded"
  | identifiersExhausted => "attempt to add with overflow"
  | productOverflow => "attempt to multiply with overflow"
  | levelsExhausted => "diagram deeper than its levels"
  | rangeStart start length =>
    s!"range start index {start} out of range for slice of length {length}"

end Fault

end BayesDiagram
