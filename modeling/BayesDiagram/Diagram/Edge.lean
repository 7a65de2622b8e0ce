import BayesDiagram.Fault
import BayesDiagram.Number.Arithmetic

/-! Bits, decision nodes and affine edges. An edge `offset + scale * node` leads to a node, whose
function takes its values in `[0, 1]`, or to the terminal, whose function is `0`; so a constant is
an edge to the terminal. -/
namespace BayesDiagram

/-- A binary decision variable. Smaller identifiers sit closer to the root; `0` stands for the
terminal. -/
structure Bit where
  id : Nat
deriving DecidableEq, Repr, Hashable

namespace Bit

def terminal : Bit :=
  ⟨0⟩

def maxId : Nat :=
  4294967295

def make (id : Nat) : Except Fault Bit :=
  if id = 0 then .error .reservedVariable else .ok ⟨id⟩

def isTerminal (bit : Bit) : Bool :=
  bit.id == 0

def level (bit : Bit) : Nat :=
  if bit.id = 0 then maxId else bit.id

@[simp] theorem level_terminal : terminal.level = maxId := rfl

theorem level_of_ne_zero {bit : Bit} (nonzero : bit.id ≠ 0) : bit.level = bit.id :=
  if_neg nonzero

def text (bit : Bit) : String :=
  s!"b{bit.id}"

instance : Ord Bit := ⟨compareOn id⟩

end Bit

structure NodeId where
  index : Nat
deriving DecidableEq, Repr, Hashable

namespace NodeId

def terminal : NodeId :=
  ⟨0⟩

def isTerminal (id : NodeId) : Bool :=
  id.index == 0

def text (id : NodeId) : String :=
  if id.isTerminal then "T" else s!"@{id.index}"

end NodeId

/-- The function `offset + scale * node`. -/
structure Edge (κ : Type) where
  offset : κ
  scale : κ
  node : NodeId

/-- The function that is `high` where the bit is set and `low` where it is clear. -/
structure Node (κ : Type) where
  bit : Bit
  low : Edge κ
  high : Edge κ

/-- The exact image of an edge: node, offset and scale as words, compared in that order. -/
abbrev EdgeKey := List Nat

def mixHash64 (hash word : UInt64) : UInt64 :=
  (hash ^^^ word) * 1099511628211

def hashSeed : UInt64 :=
  14695981039346656037

namespace Edge

variable {σ κ : Type} [Coefficient σ κ]

def constant (value : κ) : Edge κ :=
  ⟨value, 0, .terminal⟩

def isConstant (e : Edge κ) : Bool :=
  e.node.isTerminal

@[simp] theorem isConstant_constant (value : κ) : (constant value).isConstant = true := rfl

def least (e : Edge κ) : κ :=
  e.offset

def greatest (e : Edge κ) : κ :=
  if e.isConstant then e.offset else e.offset + e.scale

def compose (outer inner : Edge κ) : Edge κ :=
  if inner.isConstant then constant (outer.offset + outer.scale * inner.offset)
  else ⟨outer.offset + outer.scale * inner.offset, outer.scale * inner.scale, inner.node⟩

def rescale (e : Edge κ) (shift factor : κ) : Edge κ :=
  if e.isConstant then constant (shift + factor * e.offset)
  else ⟨shift + factor * e.offset, factor * e.scale, e.node⟩

def round (precision : Precision) (e : Edge κ) : Edge κ :=
  if e.isConstant then constant (Coefficient.round precision e.offset)
  else ⟨Coefficient.round precision e.offset, Coefficient.round precision e.scale, e.node⟩

def key (e : Edge κ) : EdgeKey :=
  let offset := Coefficient.words e.offset
  let scale := Coefficient.words e.scale
  [e.node.index, offset.1, offset.2, scale.1, scale.2]

def near (tolerance : σ) (e f : Edge κ) : Bool :=
  e.node == f.node && Coefficient.near tolerance e.offset f.offset &&
    (e.isConstant || Coefficient.near tolerance e.scale f.scale)

def mixInto (quantum : σ) (hash : UInt64) (e : Edge κ) : UInt64 :=
  let hash := mixHash64 hash e.node.index.toUInt64
  let hash := mixHash64 hash (Coefficient.quantize quantum e.offset).toUInt64
  if e.isConstant then hash
  else mixHash64 hash (Coefficient.quantize quantum e.scale).toUInt64

end Edge

/-- Items stored once up to a tolerance: a coarse hash chooses the bucket of an item, a fine
comparison decides within it. -/
class Canonical (σ : outParam Type) (α : Type) where
  coarseHash : σ → α → UInt64
  matching : σ → α → α → Bool

instance {σ κ : Type} [Coefficient σ κ] : Canonical σ (Edge κ) where
  coarseHash quantum e := e.mixInto quantum hashSeed
  matching := Edge.near

instance {σ κ : Type} [Coefficient σ κ] : Canonical σ (Node κ) where
  coarseHash quantum node :=
    node.high.mixInto quantum
      (node.low.mixInto quantum (mixHash64 hashSeed node.bit.id.toUInt64))
  matching tolerance node other :=
    node.bit == other.bit && node.low.near tolerance other.low &&
      node.high.near tolerance other.high

end BayesDiagram
