import BayesDiagram.Diagram.Inspect

/-! Pins and the reclaiming of cells. A flush forgets all memoized results and drops every root
that is not pinned and every node that no pinned root reaches. No other operation drops a cell. -/
namespace BayesDiagram.Store

variable {σ κ : Type} [Scalar σ] [Coefficient σ κ]

section Pins

omit [Scalar σ] [Coefficient σ κ]

def pinCount (s : Store σ κ) (f : Root) : Nat :=
  s.pins.getD f.index 0

def isPinned (s : Store σ κ) (f : Root) : Bool :=
  s.pins.contains f.index

def pin (f : Root) : StoreM σ κ Unit :=
  modify fun s => { s with pins := s.pins.insert f.index (s.pinCount f + 1) }

def unpin (f : Root) : StoreM σ κ Unit := do
  match (← get).pins[f.index]? with
  | none => throw (.rootNotPinned f.index)
  | some count =>
    modify fun s =>
      { s with pins :=
          if 1 < count then s.pins.insert f.index (count - 1) else s.pins.erase f.index }

def usedCells (s : Store σ κ) : Nat :=
  s.nodes.size + s.roots.size + s.applied.size + s.restricted.size

end Pins

omit [Coefficient σ κ] in
def freeRatio (s : Store σ κ) : σ :=
  let free := 1 - Nat.cast s.usedCells / Nat.cast s.config.capacity
  if free < 0 then 0 else free

def clearComputed (s : Store σ κ) : Store σ κ :=
  { s with applied := s.applied.clear, restricted := s.restricted.clear }

def pinnedNodes (s : Store σ κ) : Except Fault (List NodeId) := do
  let tops ← s.pins.keys.mapM fun index => (s.edge ⟨index⟩).map Edge.node
  s.descendants tops

omit [Scalar σ] in
def drop (s : Store σ κ) (alive : List NodeId) : Store σ κ :=
  let aliveCells := Std.TreeSet.ofList (alive.map NodeId.index)
  { s with
    roots := (s.roots.retain s.pins.contains).2
    nodes := (s.nodes.retain aliveCells.contains).2
    flushes := s.flushes + 1 }

def collectGarbage : StoreM σ κ Unit := do
  modify clearComputed
  let alive ← StoreM.inspect pinnedNodes
  modify (·.drop alive)

/-- Flushes unless enough of the capacity is free, and says whether it did. -/
def flushUnderPressure : StoreM σ κ Bool := do
  let s ← get
  if s.freeRatio < s.config.minFreeRatio then
    collectGarbage
    return true
  else return false

structure Statistics where
  nodes : Nat
  roots : Nat
  computed : Nat
  hits : Nat
  misses : Nat
  pinned : Nat
  flushes : Nat
deriving DecidableEq, Repr

omit [Scalar σ] [Coefficient σ κ] in
def statistics (s : Store σ κ) : Statistics where
  nodes := s.nodes.size
  roots := s.roots.size
  computed := s.applied.size + s.restricted.size
  hits := s.applied.hits + s.restricted.hits
  misses := s.applied.misses + s.restricted.misses
  pinned := s.pins.size
  flushes := s.flushes

end BayesDiagram.Store
