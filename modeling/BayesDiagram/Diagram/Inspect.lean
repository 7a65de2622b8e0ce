import BayesDiagram.Closure
import BayesDiagram.Diagram.Apply
import BayesDiagram.Number.Decimal

/-! What a diagram says, read off without changing the store: values, bits, nodes, counts and a
text form. -/
namespace BayesDiagram

abbrev Assignment := Bit → Option Bool

/-- The assignment of a list of pairs, a later pair winning over an earlier one. -/
def Assignment.ofList (pairs : List (Bit × Bool)) : Assignment := fun bit =>
  (pairs.reverse.find? (·.1 == bit)).map Prod.snd

instance : Ord NodeId := ⟨compareOn NodeId.index⟩

instance : Std.TransOrd NodeId :=
  inferInstanceAs (Std.TransCmp (compareOn NodeId.index))

namespace Store

variable {σ κ : Type} [Scalar σ] [Coefficient σ κ]

section Reading

omit [Scalar σ] [Coefficient σ κ]

def isConstant (s : Store σ κ) (f : Root) : Except Fault Bool :=
  (s.edge f).map Edge.isConstant

def constantValue? (s : Store σ κ) (f : Root) : Except Fault (Option κ) :=
  (s.edge f).map fun e => if e.isConstant then some e.offset else none

def least (s : Store σ κ) (f : Root) : Except Fault κ :=
  (s.edge f).map Edge.least

def top? (s : Store σ κ) (f : Root) : Except Fault (Option Bit) := do
  let bit ← s.bitOf (← s.edge f)
  return if bit.isTerminal then none else some bit

def descendants (s : Store σ κ) (tops : List NodeId) : Except Fault (List NodeId) :=
  let known := NodeId.terminal :: s.nodes.indices.map NodeId.mk
  (closure children (Std.TreeSet.ofList known) ∅ tops).map Std.TreeSet.toList
where
  children (id : NodeId) : Except Fault (List NodeId) :=
    if id.isTerminal then .ok []
    else (s.node id).map fun node => [node.low.node, node.high.node]

def nodeCount (s : Store σ κ) (f : Root) : Except Fault Nat := do
  return (← s.descendants [(← s.edge f).node]).length

def bitsUsed (s : Store σ κ) (f : Root) : Except Fault (List Bit) := do
  let nodes ← s.descendants [(← s.edge f).node]
  let bits ← (nodes.filter (!·.isTerminal)).mapM fun id => (s.node id).map (·.bit.id)
  return (Std.TreeSet.ofList bits).toList.map Bit.mk

end Reading

omit [Scalar σ] in
def greatest (s : Store σ κ) (f : Root) : Except Fault κ :=
  (s.edge f).map Edge.greatest

omit [Scalar σ] in
/-- The value `sum + factor * e` along the path of an assignment, nothing where it leaves a bit
of the path open. -/
def evaluateLevels (s : Store σ κ) (assignment : Assignment) :
    (levels : Nat) → κ → κ → Edge κ → Except Fault (Option κ)
  | 0, _, _, _ => throw .levelsExhausted
  | levels + 1, sum, factor, e =>
    let sum := sum + factor * e.offset
    if e.isConstant then return some sum
    else do
      let node ← s.node e.node
      match assignment node.bit with
      | none => return none
      | some value =>
        s.evaluateLevels assignment levels sum (factor * e.scale)
          (if value then node.high else node.low)

omit [Scalar σ] in
def evaluate (s : Store σ κ) (f : Root) (assignment : Assignment) : Except Fault (Option κ) := do
  s.evaluateLevels assignment levelCount 0 1 (← s.edge f)

/-! ### Counting -/

abbrev CountMemo := Std.TreeMap (List Nat) Nat

/-- The number of assignments of the bits from a position on under which an edge is away from zero
by more than the tolerance. The bits that are skipped before the one that is tested are free. -/
def countEdge (s : Store σ κ) (bits : List Bit) (position : Nat) (e : Edge κ) :
    StateT CountMemo (Except Fault) Nat := do
  let tolerance := s.config.tolerance
  if tolerance < Coefficient.toScalar e.least ∨ Coefficient.toScalar e.greatest < -tolerance then
    return 1 <<< (bits.length - position)
  if e.isConstant then return 0
  let key := position :: e.key
  match (← get)[key]? with
  | some count => return count
  | none =>
    let node ← s.node e.node
    match _found : (bits.drop position).findIdx? (· == node.bit) with
    | none => throw (.notCounted node.bit.id)
    | some skipped =>
      let tested := position + skipped
      let low ← s.countEdge bits (tested + 1) ((e.compose node.low).round s.config.precision)
      let high ← s.countEdge bits (tested + 1) ((e.compose node.high).round s.config.precision)
      let count := (low + high) <<< (tested - position)
      modify (·.insert key count)
      return count
termination_by bits.length - position
decreasing_by
  all_goals
    have := (List.findIdx?_eq_some_iff_findIdx_eq.mp _found).1
    rw [List.length_drop] at this
    omega

def countNonzero (s : Store σ κ) (f : Root) (bits : List Bit) : Except Fault Nat := do
  let bits := (Std.TreeSet.ofList (bits.map Bit.id)).toList.map Bit.mk
  (s.countEdge bits 0 (← s.edge f)).run' ∅

/-! ### Text -/

variable [DecimalText σ]

omit [Scalar σ] in
def bracketLevels (s : Store σ κ) : (levels : Nat) → Edge κ → Except Fault String
  | 0, _ => throw .levelsExhausted
  | levels + 1, e =>
    let text (x : κ) := DecimalText.shortest (Coefficient.toScalar x)
    if e.isConstant then return s!"({text e.offset})"
    else do
      let node ← s.node e.node
      let high ← s.bracketLevels levels node.high
      let low ← s.bracketLevels levels node.low
      return s!"<{text e.offset} + {text e.scale}*{e.node.text}:({node.bit.text}, {high}, {low})>"

omit [Scalar σ] in
def bracketText (s : Store σ κ) (f : Root) : Except Fault String := do
  s.bracketLevels levelCount (← s.edge f)

end Store

end BayesDiagram
