import BayesDiagram.Network.ConditionalTable
import BayesDiagram.Network.DependencyGraph

/-! Bayesian networks: declared variables with their labels, and conditional probability tables
for some of them. -/
namespace BayesDiagram

structure Variable where
  name : String
  labels : List String
deriving DecidableEq

def Variable.arity (v : Variable) : Nat :=
  v.labels.length

def Variable.indexOf? (v : Variable) (label : String) : Option Nat :=
  v.labels.idxOf? label

structure Network (σ : Type) where
  declared : List Variable := []
  tables : Std.ExtTreeMap String (ConditionalTable σ) := ∅

namespace Network

variable {σ : Type}

def declare (n : Network σ) (v : Variable) : Except (Error σ) (Network σ) :=
  if n.declared.any (·.name == v.name) then .error (.duplicateVariable v.name)
  else .ok { n with declared := n.declared ++ [v] }

def getVariable (n : Network σ) (name : String) : Except (Error σ) Variable :=
  match n.declared.find? (·.name == name) with
  | some v => .ok v
  | none => .error (.unknownVariable name)

def table? (n : Network σ) (head : String) : Option (ConditionalTable σ) :=
  n.tables[head]?

/-- Attaches a table to its head, in place of an earlier one. -/
def attach (n : Network σ) (t : ConditionalTable σ) : Network σ :=
  { n with tables := n.tables.insert t.head t }

/-- Attaches a table given with the head varying slowest and the last parent fastest; its sizes
are those of the declared variables. -/
def attachDense (n : Network σ) (head : String) (parents : List String)
    (probabilities : List σ) : Except (Failure σ) (Network σ) := do
  let sizes ← Failure.liftError
    ((head :: parents).mapM fun name => (n.getVariable name).map Variable.arity)
  let t ← ConditionalTable.ofDense head parents sizes probabilities
  return n.attach t

def valueIndex (n : Network σ) (name label : String) : Except (Error σ) Nat := do
  let v ← n.getVariable name
  match v.indexOf? label with
  | some index => return index
  | none => throw (.unknownValue name label)

def dependencies (names : List String) (tables : List (ConditionalTable σ)) :
    Except (Error σ) DependencyGraph :=
  tables.foldlM (fun g t => t.parents.foldlM (fun g parent => g.link parent t.head) g)
    (names.foldl DependencyGraph.add {})

/-! ### Validation -/

section Validation

variable [Scalar σ]

def rowTolerance : σ :=
  1e-6

def firstRepeated? (before : List String) : List String → Option String
  | [] => none
  | name :: rest => if before.contains name then some name else firstRepeated? (name :: before) rest

def checkEntry (t : ConditionalTable σ) (scope : List Variable) (assignment : List Nat)
    (probability : σ) : Except (Error σ) Unit := do
  if assignment.length ≠ scope.length then
    throw (t.malformed (.assignmentLength assignment scope.length))
  (scope.zip assignment).forM fun (v, index) =>
    if index < v.arity then .ok () else .error (.valueOutOfDomain v.name index v.arity)
  unless Scalar.isFinite probability ∧ 0 ≤ probability ∧ probability ≤ 1 do
    throw (t.malformed (.probability probability assignment))

def rowSums (t : ConditionalTable σ) : Std.ExtTreeMap (List Nat) σ :=
  t.entries.foldl (fun sums assignment p =>
    sums.insert assignment.tail (sums.getD assignment.tail 0 + p)) ∅

def checkRow (t : ConditionalTable σ) (row : List Nat) (sum : σ) : Except (Error σ) Unit :=
  if sum - 1 < -rowTolerance ∨ rowTolerance < sum - 1 then .error (t.malformed (.rowSum row sum))
  else .ok ()

def checkTable (n : Network σ) (t : ConditionalTable σ) : Except (Error σ) Unit := do
  let scope ← t.scope.mapM n.getVariable
  if let some name := firstRepeated? [] t.scope then
    throw (t.malformed (.repeatedName name))
  t.entries.toList.forM fun (assignment, p) => checkEntry t scope assignment p
  (rowSums t).toList.forM fun (row, sum) => checkRow t row sum

def validateWith (sort : DependencyGraph.Toposort) (n : Network σ) : Except (Error σ) Unit := do
  let tables := n.tables.toList.map Prod.snd
  tables.forM n.checkTable
  let g ← dependencies (n.declared.map Variable.name) tables
  g.checkAcyclicWith sort

def validate (n : Network σ) : Except (Error σ) Unit :=
  n.validateWith DependencyGraph.toposort

end Validation

end Network

end BayesDiagram
