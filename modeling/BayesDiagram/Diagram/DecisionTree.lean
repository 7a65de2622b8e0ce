import BayesDiagram.Diagram.Edge

/-! Explicit decision trees over bits. -/
namespace BayesDiagram

inductive DecisionTree (α : Type) where
  | leaf (value : α)
  | branch (bit : Bit) (low high : DecisionTree α)

namespace DecisionTree

variable {α : Type}

/-- The tree that tests all bits in turn, with leaves given by the path that leads there. -/
def complete : List Bit → (List Bool → α) → DecisionTree α
  | [], leafAt => .leaf (leafAt [])
  | bit :: bits, leafAt =>
    .branch bit (complete bits fun path => leafAt (false :: path))
      (complete bits fun path => leafAt (true :: path))

def leaves : DecisionTree α → List α
  | .leaf value => [value]
  | .branch _ low high => low.leaves ++ high.leaves

def leafCount : DecisionTree α → Nat
  | .leaf _ => 1
  | .branch _ low high => low.leafCount + high.leafCount

def select (assignment : Bit → Bool) : DecisionTree α → α
  | .leaf value => value
  | .branch bit low high =>
    if assignment bit then high.select assignment else low.select assignment

theorem select_complete (bits : List Bit) (leafAt : List Bool → α) (assignment : Bit → Bool) :
    (complete bits leafAt).select assignment = leafAt (bits.map assignment) := by
  induction bits generalizing leafAt with
  | nil => rfl
  | cons bit bits ih => cases h : assignment bit <;> simp [complete, select, ih, h]

end DecisionTree

end BayesDiagram
