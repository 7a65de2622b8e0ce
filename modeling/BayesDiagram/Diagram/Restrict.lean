import BayesDiagram.Diagram.Apply

/-! Fixing a bit of a diagram, and eliminating a bit by combining its two cofactors. -/
namespace BayesDiagram.Store

variable {σ κ : Type} [Scalar σ] [Coefficient σ κ]

def lookupRestricted (key : RestrictKey) : StoreM σ κ (Option (Edge κ)) :=
  modifyGet fun s =>
    let (result, restricted) := s.restricted.lookup key
    (result, { s with restricted })

def recordRestricted (key : RestrictKey) (result : Edge κ) : StoreM σ κ Unit :=
  modify fun s => { s with restricted := s.restricted.insert key result }

def branchRestrict (below : Edge κ → StoreM σ κ (Edge κ)) (id : NodeId) (node : Node κ)
    (bit : Bit) (value : Bool) : StoreM σ κ (Edge κ) := do
  let key : RestrictKey := ⟨id, bit, value⟩
  match ← lookupRestricted key with
  | some result => return result
  | none =>
    let low ← below node.low
    let high ← below node.high
    let result ← makeNode node.bit low high
    recordRestricted key result
    return result

/-- One level of a restriction, with `below` for the levels under it. Below a larger bit the
fixed one does not occur. -/
def restrictStep (below : Edge κ → StoreM σ κ (Edge κ)) (bit : Bit) (value : Bool)
    (e : Edge κ) : StoreM σ κ (Edge κ) := do
  if e.isConstant then return e
  else
    let node ← StoreM.inspect (Store.node · e.node)
    if bit.id < node.bit.id then return e
    else if node.bit = bit then roundEdge (e.compose (if value then node.high else node.low))
    else
      let inner ← branchRestrict below e.node node bit value
      roundEdge (e.compose inner)

def restrictLevels (bit : Bit) (value : Bool) : (levels : Nat) → Edge κ → StoreM σ κ (Edge κ)
  | 0, _ => throw .levelsExhausted
  | levels + 1, e => restrictStep (restrictLevels bit value levels) bit value e

def restrictEdge (e : Edge κ) (bit : Bit) (value : Bool) : StoreM σ κ (Edge κ) :=
  restrictLevels bit value levelCount e

def restrict (f : Root) (bit : Bit) (value : Bool) : StoreM σ κ Root := do
  let e ← StoreM.inspect (edge · f)
  intern (← restrictEdge e bit value)

def marginalize (f : Root) (bit : Bit) (op : Operator) : StoreM σ κ Root := do
  let e ← StoreM.inspect (edge · f)
  let low ← restrictEdge e bit false
  let high ← restrictEdge e bit true
  intern (← applyEdge op low high)

end BayesDiagram.Store
