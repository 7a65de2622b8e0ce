import BayesDiagram.Failure
import BayesDiagram.Number.Arithmetic
import Std.Data.ExtTreeMap

/-! Conditional probability tables `P(head | parents)`. Entries are kept sparsely, by the indices
of the head's value and of the parents' values; an entry that is not given is zero. -/
namespace BayesDiagram

structure ConditionalTable (σ : Type) where
  head : String
  parents : List String
  entries : Std.ExtTreeMap (List Nat) σ
  /-- The function that the table stands for; `max` asks for the noisy-max construction. -/
  tag : Option String

/-- Moves an odometer on. The value at the last of some positions goes up by one; if it reaches its
size, it starts again from zero and the position before it moves on. -/
def advance (sizes : List Nat) : (positions : Nat) → List Nat → List Nat
  | 0, assignment => assignment
  | position + 1, assignment =>
    let value := assignment.getD position 0 + 1
    if value < sizes.getD position 0 then assignment.set position value
    else advance sizes position (assignment.set position 0)

def nextAssignment (sizes assignment : List Nat) : List Nat :=
  advance sizes sizes.length assignment

def firstAssignment (sizes : List Nat) : List Nat :=
  List.replicate sizes.length 0

def assignmentsFrom (sizes : List Nat) : (count : Nat) → List Nat → List (List Nat)
  | 0, _ => []
  | count + 1, assignment =>
    assignment :: assignmentsFrom sizes count (nextAssignment sizes assignment)

def assignmentCount (sizes : List Nat) : Nat :=
  sizes.foldr (· * ·) 1

def assignments (sizes : List Nat) : List (List Nat) :=
  assignmentsFrom sizes (assignmentCount sizes) (firstAssignment sizes)

namespace ConditionalTable

variable {σ : Type}

def empty (head : String) (parents : List String) : ConditionalTable σ :=
  ⟨head, parents, ∅, none⟩

def withTag (t : ConditionalTable σ) (tag : String) : ConditionalTable σ :=
  { t with tag := some tag }

def malformed (t : ConditionalTable σ) (defect : TableDefect σ) : Error σ :=
  .malformedTable t.head defect

def scope (t : ConditionalTable σ) : List String :=
  t.head :: t.parents

def isNoisyMax (t : ConditionalTable σ) : Bool :=
  t.tag == some "max"

def set (t : ConditionalTable σ) (assignment : List Nat) (probability : σ) : ConditionalTable σ :=
  { t with entries := t.entries.insert assignment probability }

def entry [Zero σ] (t : ConditionalTable σ) (assignment : List Nat) : σ :=
  t.entries.getD assignment 0

/-- The product of the sizes, which must stay within 64 bits from left to right. -/
def denseSize (sizes : List Nat) : Except Fault Nat :=
  sizes.foldlM (fun product size =>
    if product * size < UInt64.size then .ok (product * size) else .error .productOverflow) 1

def setNext (sizes : List Nat) (state : ConditionalTable σ × List Nat) (probability : σ) :
    ConditionalTable σ × List Nat :=
  (state.1.set state.2 probability, nextAssignment sizes state.2)

/-- The table with the given sizes of its scope, its entries listed with the head varying slowest
and the last parent fastest. -/
def ofDense (head : String) (parents : List String) (sizes : List Nat) (probabilities : List σ) :
    Except (Failure σ) (ConditionalTable σ) := do
  let t := empty head parents
  if sizes.length ≠ t.scope.length then
    throw (.error (t.malformed (.sizeCount sizes.length t.scope.length)))
  let expected ← Failure.liftFault (denseSize sizes)
  if probabilities.length ≠ expected then
    throw (.error (t.malformed (.entryCount probabilities.length expected)))
  return (probabilities.foldl (setNext sizes) (t, firstAssignment sizes)).1

def addRow (t : ConditionalTable σ) (parentValues : List Nat) (probabilities : List σ) :
    Except (Error σ) (ConditionalTable σ) :=
  if parentValues.length ≠ t.parents.length then
    .error (t.malformed (.rowLength parentValues.length t.parents.length))
  else
    .ok (probabilities.zipIdx.foldl (fun t (p, value) => t.set (value :: parentValues) p) t)

end ConditionalTable

end BayesDiagram
