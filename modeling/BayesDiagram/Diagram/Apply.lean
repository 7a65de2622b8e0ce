import BayesDiagram.Diagram.Store

/-! Point-wise combination of two diagrams. Easy cases are answered at once; otherwise a common
affine transform is taken out of the operands, so that operand pairs that differ by it share one
result, and the branches at the topmost bit are combined. -/
namespace BayesDiagram.Store

variable {σ κ : Type} [Scalar σ] [Coefficient σ κ]

def shortcut? (op : Operator) (f g : Edge κ) : Option (Edge κ) :=
  let same := f.key == g.key
  match op with
  | .sum =>
    if f.isConstant then some (g.rescale f.offset 1)
    else if g.isConstant then some (f.rescale g.offset 1)
    else if same then some (f.rescale 0 (Coefficient.ofScalar (Nat.cast 2 : σ)))
    else none
  | .difference =>
    if g.isConstant then some (f.rescale (-g.offset) 1)
    else if same then some (.constant 0)
    else none
  | .product =>
    if f.isConstant then scaled f.offset g
    else if g.isConstant then scaled g.offset f
    else none
  | .divide =>
    if g.isConstant ∧ 0 < g.offset then
      some (f.rescale 0 (Coefficient.reciprocal g.offset))
    else none
  | .min =>
    if same ∨ f.greatest ≤ g.least then some f
    else if g.greatest ≤ f.least then some g
    else none
  | .max =>
    if same ∨ f.greatest ≤ g.least then some g
    else if g.greatest ≤ f.least then some f
    else none
where
  /-- A factor that is negative needs recursion: it turns the range around. -/
  scaled (k : κ) (other : Edge κ) : Option (Edge κ) :=
    if Coefficient.isZero k then some (.constant 0)
    else if 0 < k then some (other.rescale 0 k)
    else none

def ordered (op : Operator) (f g : Edge κ) : Edge κ × Edge κ :=
  if op.isCommutative ∧ g.key < f.key then (g, f) else (f, g)

structure Factored (κ : Type) where
  left : Edge κ
  right : Edge κ
  shift : κ
  factor : κ

/-- Takes the affine transform of the operands out, where neither is constant and the operator
allows it. -/
def factored? (precision : Precision) (op : Operator) (f g : Edge κ) : Option (Factored κ) :=
  if f.isConstant ∨ g.isConstant then none
  else
    let left : Edge κ := ⟨0, 1, f.node⟩
    let right (offset : κ) : Edge κ := Edge.round precision ⟨offset, g.scale / f.scale, g.node⟩
    match op with
    | .sum => some ⟨left, right 0, f.offset + g.offset, f.scale⟩
    | .difference => some ⟨left, right 0, f.offset - g.offset, f.scale⟩
    | .min | .max => some ⟨left, right ((g.offset - f.offset) / f.scale), f.offset, f.scale⟩
    | .product =>
      some ⟨Edge.round precision ⟨f.offset / f.scale, 1, f.node⟩,
        Edge.round precision ⟨g.offset / g.scale, 1, g.node⟩, 0, f.scale * g.scale⟩
    | .divide => none

def cofactors (s : Store σ κ) (e : Edge κ) (bit : Bit) : Except Fault (Edge κ × Edge κ) :=
  if e.isConstant then .ok (e, e)
  else do
    let node ← s.node e.node
    if node.bit = bit then
      return ((e.compose node.low).round s.config.precision,
        (e.compose node.high).round s.config.precision)
    else return (e, e)

def topBit (s : Store σ κ) (f g : Edge κ) : Except Fault Bit := do
  let fBit ← s.bitOf f
  let gBit ← s.bitOf g
  let bit := if fBit.level ≤ gBit.level then fBit else gBit
  if bit.isTerminal then throw .constantOperands
  return bit

def lookupApplied (key : ApplyKey) : StoreM σ κ (Option (Edge κ)) :=
  modifyGet fun s =>
    let (result, applied) := s.applied.lookup key
    (result, { s with applied })

def recordApplied (key : ApplyKey) (result : Edge κ) : StoreM σ κ Unit :=
  modify fun s => { s with applied := s.applied.insert key result }

def branchApply (below : Edge κ → Edge κ → StoreM σ κ (Edge κ)) (op : Operator) (f g : Edge κ) :
    StoreM σ κ (Edge κ) := do
  let key : ApplyKey := ⟨op, f.key, g.key⟩
  match ← lookupApplied key with
  | some result => return result
  | none =>
    let bit ← StoreM.inspect (topBit · f g)
    let (fLow, fHigh) ← StoreM.inspect (cofactors · f bit)
    let (gLow, gHigh) ← StoreM.inspect (cofactors · g bit)
    let low ← below fLow gLow
    let high ← below fHigh gHigh
    let result ← makeNode bit low high
    recordApplied key result
    return result

def applyStep (below : Edge κ → Edge κ → StoreM σ κ (Edge κ)) (op : Operator) (f g : Edge κ) :
    StoreM σ κ (Edge κ) := do
  if f.isConstant ∧ g.isConstant then
    roundEdge (.constant (op.compute f.offset g.offset))
  else
    match shortcut? op f g with
    | some result => roundEdge result
    | none =>
      let (f, g) := ordered op f g
      match factored? (← get).config.precision op f g with
      | some ⟨left, right, shift, factor⟩ =>
        let result ← branchApply below op left right
        roundEdge (result.rescale shift factor)
      | none => branchApply below op f g

def applyLevels (op : Operator) : (levels : Nat) → Edge κ → Edge κ → StoreM σ κ (Edge κ)
  | 0, _, _ => throw .levelsExhausted
  | levels + 1, f, g => applyStep (applyLevels op levels) op f g

def levelCount : Nat :=
  Bit.maxId + 1

def applyEdge (op : Operator) (f g : Edge κ) : StoreM σ κ (Edge κ) :=
  applyLevels op levelCount f g

def apply (f g : Root) (op : Operator) : StoreM σ κ Root := do
  let f ← StoreM.inspect (edge · f)
  let g ← StoreM.inspect (edge · g)
  intern (← applyEdge op f g)

end BayesDiagram.Store
