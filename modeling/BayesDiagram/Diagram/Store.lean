import BayesDiagram.Diagram.ComputedTable
import BayesDiagram.Diagram.UniqueTable

/-! The diagram store: decision nodes and root edges kept once each, the results of earlier
operations, and the pins that keep roots alive. Every node is normalized so that its function
spans `[0, 1]`; the affine edge into it carries the rest. -/
namespace BayesDiagram

structure Root where
  index : Nat
deriving DecidableEq, Repr, Hashable

def Root.text (root : Root) : String :=
  s!"#{root.index}"

structure StoreConfig (σ : Type) where
  precision : Precision
  tolerance : σ
  quantum : σ
  capacity : Nat
  minFreeRatio : σ
  /-- The number of buckets of a unique table, as a power of two. -/
  bucketBits : Nat

def StoreConfig.standard {σ : Type} [Scalar σ] : StoreConfig σ where
  precision := .doubleDouble
  tolerance := 1e-10
  quantum := 1e-6
  capacity := 4194304
  minFreeRatio := 0.10
  bucketBits := 16

structure Store (σ κ : Type) where
  config : StoreConfig σ
  nodes : UniqueTable σ (Node κ)
  roots : UniqueTable σ (Edge κ)
  applied : ComputedTable ApplyKey (Edge κ)
  restricted : ComputedTable RestrictKey (Edge κ)
  pins : Std.TreeMap Nat Nat
  flushes : Nat

/-- Steps on a store. A step that meets a fault keeps the changes it made before. -/
abbrev StoreM (σ κ : Type) := EStateM Fault (Store σ κ)

def StoreM.inspect {σ κ α : Type} (read : Store σ κ → Except Fault α) : StoreM σ κ α := fun s =>
  match read s with
  | .ok answer => .ok answer s
  | .error fault => .error fault s

namespace Store

variable {σ κ : Type} [Scalar σ] [Coefficient σ κ]

omit [Coefficient σ κ] in
def create (config : StoreConfig σ) : Except Fault (Store σ κ) := do
  if ¬ 0 ≤ config.tolerance then throw .negativeTolerance
  if config.capacity = 0 then throw .zeroCapacity
  let nodes ← UniqueTable.create config.bucketBits config.quantum config.tolerance
  let roots ← UniqueTable.create config.bucketBits config.quantum config.tolerance
  return { config, nodes, roots, applied := {}, restricted := {}, pins := ∅, flushes := 0 }

/-! ### Reading -/

omit [Scalar σ] [Coefficient σ κ] in
def edge (s : Store σ κ) (f : Root) : Except Fault (Edge κ) :=
  s.roots.value f.index

omit [Scalar σ] [Coefficient σ κ] in
def node (s : Store σ κ) (id : NodeId) : Except Fault (Node κ) :=
  if id.isTerminal then .error .terminalChildren else s.nodes.value id.index

omit [Scalar σ] [Coefficient σ κ] in
def bitOf (s : Store σ κ) (e : Edge κ) : Except Fault Bit :=
  if e.isConstant then .ok .terminal else (s.node e.node).map Node.bit

/-! ### Writing -/

omit [Scalar σ] in
def roundEdge (e : Edge κ) : StoreM σ κ (Edge κ) := do
  return e.round (← get).config.precision

omit [Scalar σ] in
def putNode (node : Node κ) : StoreM σ κ NodeId :=
  modifyGet fun s =>
    let (index, nodes) := s.nodes.put node
    (⟨index⟩, { s with nodes })

omit [Scalar σ] in
def intern (e : Edge κ) : StoreM σ κ Root := do
  let e ← roundEdge e
  modifyGet fun s =>
    let (index, roots) := s.roots.put e
    (⟨index⟩, { s with roots })

end Store

/-- What a test of a bit with two branches comes to: an edge that needs no test, or an affine
transform of a node. -/
inductive NormalForm (κ : Type) where
  | edge (e : Edge κ)
  | node (offset scale : κ) (node : Node κ)

namespace NormalForm

variable {σ κ : Type} [Scalar σ] [Coefficient σ κ]

omit [Scalar σ] in
/-- The branch `e` mapped from `[least, least + range]` to `[0, 1]`. -/
def branch (precision : Precision) (least range : κ) (e : Edge κ) : Edge κ :=
  let offset := (e.offset - least) / range
  (if e.isConstant then Edge.constant offset
    else ⟨offset, e.scale / range, e.node⟩ : Edge κ).round precision

def ofTest (config : StoreConfig σ) (bit : Bit) (low high : Edge κ) : NormalForm κ :=
  if low.near config.tolerance high then .edge low
  else
    let least := Coefficient.least low.least high.least
    let greatest := Coefficient.greatest low.greatest high.greatest
    let range := greatest - least
    if Coefficient.toScalar range ≤ config.tolerance then
      .edge ((Edge.constant least).round config.precision)
    else
      let branch := branch config.precision least range
      .node least range ⟨bit, branch low, branch high⟩

end NormalForm

namespace Store

variable {σ κ : Type} [Scalar σ] [Coefficient σ κ]

def makeNode (bit : Bit) (low high : Edge κ) : StoreM σ κ (Edge κ) := do
  let lowBit ← StoreM.inspect (bitOf · low)
  unless bit.level < lowBit.level do throw .lowNotBelow
  let highBit ← StoreM.inspect (bitOf · high)
  unless bit.level < highBit.level do throw .highNotBelow
  match NormalForm.ofTest (← get).config bit low high with
  | .edge e => return e
  | .node offset scale node =>
    let id ← putNode node
    roundEdge ⟨offset, scale, id⟩

end Store

end BayesDiagram
