import BayesDiagram.Diagram.Build
import BayesDiagram.Inference.Journal
import BayesDiagram.Network.Encoding
import BayesDiagram.Network.Network

/-! Compilation of probability tables into diagrams over the bits of their scope.

Enumeration reads every leaf of the complete decision tree from the table. The noisy-max
construction takes the causes as independent: with the leak `L i`, the probability of a head value
up to `i` when all parents have value zero, and `C i p v`, the same with parent `p` at `v`, the
head's distribution function is the product of the leak and of the ratios `C i p v / L i`, and the
table is the sum over `i` of its steps. Codes of no value have probability zero. -/
namespace BayesDiagram

structure Compiler (σ : Type) where
  network : Network σ
  encoding : Encoding

structure ScopeBit where
  bit : Bit
  position : Nat
  place : Nat

def ScopeBit.decode (scopeBits : List ScopeBit) (scopeLength : Nat) (path : List Bool) : List Nat :=
  (List.range scopeLength).map fun position =>
    (scopeBits.zip path).foldr (fun (b, isSet) value =>
      if isSet ∧ b.position = position then 1 <<< b.place + value else value) 0

namespace ConditionalTable

variable {σ : Type} [Scalar σ]

def strategy (t : ConditionalTable σ) : Strategy :=
  if t.isNoisyMax then .noisyMax else .enumeration

def singleCause (t : ConditionalTable σ) (headValue : Nat) (cause : Option (Nat × Nat)) :
    List Nat :=
  headValue :: (List.range t.parents.length).map fun k =>
    match cause with
    | some (parent, value) => if k = parent then value else 0
    | none => 0

/-- The probability of a head value up to `i` under a single cause. The sum starts at negative
zero, which changes no number, not even the sign of a zero. -/
def cumulative (t : ConditionalTable σ) (cause : Option (Nat × Nat)) : (i : Nat) → σ
  | 0 => -0 + t.entry (t.singleCause 0 cause)
  | i + 1 => t.cumulative cause i + t.entry (t.singleCause (i + 1) cause)

end ConditionalTable

namespace Compiler

open InferenceM

variable {σ κ : Type} [Scalar σ] [Coefficient σ κ]

omit [Scalar σ] in
def scopeBits (c : Compiler σ) (scope : List String) : Except (Error σ) (List ScopeBit) := do
  let blocks ← scope.mapM c.encoding.bits
  let found := blocks.zipIdx.flatMap fun (bits, position) =>
    bits.zipIdx.map fun (bit, place) => ⟨bit, position, place⟩
  return found.mergeSort (·.bit.id ≤ ·.bit.id)

def enumerate (c : Compiler σ) (t : ConditionalTable σ) : InferenceM σ κ Root := do
  let bits ← checked (c.scopeBits t.scope)
  let tree := DecisionTree.complete (bits.map ScopeBit.bit) fun path =>
    t.entry (ScopeBit.decode bits t.scope.length path)
  onStore (Store.ofOrderedTree tree)

def overValues (c : Compiler σ) (name : String) (valueAt : Nat → σ) : InferenceM σ κ Root := do
  let arity := (← checked (c.network.getVariable name)).arity
  let bits ← checked (c.encoding.bits name)
  let tree := DecisionTree.complete bits fun path =>
    let value := Encoding.ofDigits path
    if value < arity then valueAt value else 0
  onStore (Store.ofOrderedTree tree)

def cumulativeRoot (c : Compiler σ) (t : ConditionalTable σ) (i : Nat) : InferenceM σ κ Root := do
  let leak := t.cumulative none i
  let leakRoot ← onStore (Store.constant leak)
  if 0 < leak then
    t.parents.zipIdx.foldlM (fun product (parent, k) => do
      let ratio ← c.overValues parent fun value =>
        if value = 0 then 1 else t.cumulative (some (k, value)) i / leak
      onStore (Store.apply product ratio .product)) leakRoot
  else return leakRoot

def noisyMax (c : Compiler σ) (t : ConditionalTable σ) : InferenceM σ κ Root := do
  let arity := (← checked (c.network.getVariable t.head)).arity
  t.parents.forM fun parent => discard (checked (c.network.getVariable parent))
  let zero ← onStore (Store.constant 0)
  let (joint, _) ← (List.range arity).foldlM (fun (joint, previous) i => do
    let current ← c.cumulativeRoot t i
    let indicator ← c.overValues t.head fun value => if value = i then 1 else 0
    let step ← onStore (Store.apply current previous .difference)
    let term ← onStore (Store.apply indicator step .product)
    return (← onStore (Store.apply joint term .sum), current)) (zero, zero)
  return joint

def compileWith (c : Compiler σ) (t : ConditionalTable σ) : Strategy → InferenceM σ κ Root
  | .enumeration => c.enumerate t
  | .noisyMax => c.noisyMax t

/-- Compiles a table in the way its tag asks for, pins the diagram and offers a flush. -/
def compile (c : Compiler σ) (t : ConditionalTable σ) : InferenceM σ κ CompiledTable := do
  let bits ← checked (c.scopeBits t.scope)
  let root ← c.compileWith t t.strategy
  onStore (Store.pin root)
  discard (onStore Store.flushUnderPressure)
  let nodeCount ← inspect (Store.nodeCount · root)
  let support ← inspect (Store.countNonzero · root (bits.map ScopeBit.bit))
  let compiled : CompiledTable :=
    { head := t.head, parents := t.parents, entryCount := t.entries.size, nodeCount, support,
      strategy := t.strategy, root }
  record (.compiled compiled)
  return compiled

end Compiler

end BayesDiagram
