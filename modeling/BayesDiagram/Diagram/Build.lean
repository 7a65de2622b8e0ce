import BayesDiagram.Diagram.DecisionTree
import BayesDiagram.Diagram.Restrict

/-! Diagrams from constants, single tests and decision trees. -/
namespace BayesDiagram.Store

variable {σ κ : Type} [Scalar σ] [Coefficient σ κ]

def constant (value : σ) : StoreM σ κ Root :=
  intern (.constant (Coefficient.ofScalar value))

def test (bit : Bit) (low high : σ) : StoreM σ κ Root := do
  intern (← makeNode bit (.constant (Coefficient.ofScalar low))
    (.constant (Coefficient.ofScalar high)))

def multiply (f : Root) (scalar : σ) : StoreM σ κ Root := do
  apply f (← constant scalar) .product

def branchEdge (bit : Bit) (low high : Edge κ) : StoreM σ κ (Edge κ) := do
  let lowBit ← StoreM.inspect (bitOf · low)
  unless bit.level < lowBit.level do throw (.mustPrecedeChildren bit.id)
  let highBit ← StoreM.inspect (bitOf · high)
  unless bit.level < highBit.level do throw (.mustPrecedeChildren bit.id)
  makeNode bit low high

def branch (bit : Bit) (low high : Root) : StoreM σ κ Root := do
  let low ← StoreM.inspect (edge · low)
  let high ← StoreM.inspect (edge · high)
  intern (← branchEdge bit low high)

def orderedEdge : DecisionTree σ → StoreM σ κ (Edge κ)
  | .leaf value => roundEdge (.constant (Coefficient.ofScalar value))
  | .branch bit low high => do
    let low ← orderedEdge low
    let high ← orderedEdge high
    branchEdge bit low high

/-- The diagram of a tree whose every bit precedes the bits below it. -/
def ofOrderedTree (tree : DecisionTree σ) : StoreM σ κ Root := do
  intern (← orderedEdge tree)

def unorderedEdge : DecisionTree σ → StoreM σ κ (Edge κ)
  | .leaf value => roundEdge (.constant (Coefficient.ofScalar value))
  | .branch bit low high => do
    let low ← unorderedEdge low
    let high ← unorderedEdge high
    let isLow ← makeNode bit (.constant 1) (.constant 0)
    let isHigh ← makeNode bit (.constant 0) (.constant 1)
    let low ← applyEdge .product isLow low
    let high ← applyEdge .product isHigh high
    applyEdge .sum low high

def ofUnorderedTree (tree : DecisionTree σ) : StoreM σ κ Root := do
  intern (← unorderedEdge tree)

end BayesDiagram.Store
