import BayesDiagram.Inference.Compile
import BayesDiagram.Network.EliminationOrder

/-! Queries answered by bucket elimination. The tables of the queried and observed variables and
of all their ancestors become factors; the elimination order is swept once, and at each variable
the factors that mention it are multiplied and its bits are fixed, summed out or kept. The product
of what is left, divided by the likelihood of the evidence, is the answer. Every diagram in between
is pinned until the factor that owns it is used up, and the store may flush after every step. -/
namespace BayesDiagram

inductive Normalization where
  | scalar
  | range
deriving DecidableEq, Repr

inductive BitOperation where
  | keep
  | fixHigh
  | fixLow
  | sumOut
deriving DecidableEq, Repr

def BitOperation.text : BitOperation → String
  | keep => "query"
  | fixHigh => "restrict-high"
  | fixLow => "restrict-low"
  | sumOut => "sum-out"

abbrev BitOperations := Std.ExtTreeMap Nat BitOperation

abbrev Evidence := Std.ExtTreeMap String Nat

structure Factor where
  scope : NameSet
  root : Root

structure Posterior (σ : Type) where
  query : List String
  likelihood : σ
  root : Root

inductive Outcome (σ : Type) where
  | posterior (p : Posterior σ)
  /-- The number of variables of the largest factor that answering would build. -/
  | cost (size : Nat)

structure Engine where
  graph : DependencyGraph
  encoding : Encoding
  tables : Std.ExtTreeMap String CompiledTable
  order : List String
  normalization : Normalization

def NameSet.union (sets : List NameSet) : NameSet :=
  sets.foldl (fun union set => set.toList.foldl (·.insert ·) union) ∅

namespace Factor

variable {σ κ : Type} [Scalar σ] [Coefficient σ κ]

def replace (old result : Root) : StoreM σ κ Root := do
  Store.pin result
  Store.unpin old
  discard Store.flushUnderPressure
  return result

def product : List Root → StoreM σ κ Root
  | [] => do
    let one ← Store.constant 1
    Store.pin one
    return one
  | first :: rest =>
    rest.foldlM (fun product factor => do
      let result ← Store.apply product factor .product
      Store.pin result
      Store.unpin product
      Store.unpin factor
      discard Store.flushUnderPressure
      return result) first

def eliminateBit (operations : BitOperations) (root : Root) (bit : Bit) : StoreM σ κ Root :=
  match operations.getD bit.id .sumOut with
  | .keep => return root
  | .sumOut => do replace root (← Store.marginalize root bit .sum)
  | .fixHigh => do replace root (← Store.restrict root bit true)
  | .fixLow => do replace root (← Store.restrict root bit false)

/-- Handles one variable of the sweep: multiplies the factors that mention it and applies the
operations of its bits. The number is that of the variables of the largest factor so far. -/
def sweepVariable (operations : BitOperations) (query : NameSet) :
    List Factor × Nat → String × List Bit → StoreM σ κ (List Factor × Nat)
  | (factors, largest), (name, bits) => do
    let (bucket, rest) := factors.partition (·.scope.contains name)
    if bucket.isEmpty then return (rest, largest)
    else
      let scope := NameSet.union (bucket.map Factor.scope)
      let root ← product (bucket.map Factor.root)
      let root ← bits.foldlM (eliminateBit operations) root
      let left := if query.contains name then scope else scope.erase name
      return (rest ++ [⟨left, root⟩], max largest scope.size)

def largestScope (scopes : List NameSet) : Nat :=
  scopes.foldl (fun largest scope => max largest scope.size) 0

def sweep (operations : BitOperations) (query : NameSet) (order : List (String × List Bit))
    (factors : List Factor) : StoreM σ κ (List Factor × Nat) :=
  order.foldlM (sweepVariable operations query) (factors, largestScope (factors.map Factor.scope))

end Factor

namespace Engine

variable {σ κ : Type} [Scalar σ] [Coefficient σ κ]

section Operations

omit [Scalar σ] [Coefficient σ κ]

def variableOperations (e : Engine) (query : NameSet) (evidence : Evidence) (name : String) :
    Except (Error σ) (List (Bit × BitOperation)) :=
  if query.contains name then
    (e.encoding.bits name).map fun bits => bits.map (·, .keep)
  else
    match evidence[name]? with
    | some value =>
      (e.encoding.encode name value).map fun digits =>
        digits.map fun (bit, isSet) => (bit, if isSet then .fixHigh else .fixLow)
    | none => (e.encoding.bits name).map fun bits => bits.map (·, .sumOut)

def checkObserved (e : Engine) (operations : BitOperations) (name : String) :
    Except (Error σ) Unit := do
  if (← e.encoding.bits name).any fun bit => operations[bit.id]? == some .sumOut then
    throw (.evidenceMarginalized name)

def assignOperations (e : Engine) (relevant query : NameSet) (evidence : Evidence) :
    Except (Error σ) BitOperations := do
  let assigned ← relevant.toList.mapM (e.variableOperations query evidence)
  let operations : BitOperations :=
    assigned.flatten.foldl (fun operations (bit, operation) => operations.insert bit.id operation) ∅
  evidence.keys.forM (e.checkObserved operations)
  return operations

end Operations

def estimateVariable (query : NameSet) :
    List NameSet × Nat → String → List NameSet × Nat
  | (scopes, largest), name =>
    let (bucket, rest) := scopes.partition (·.contains name)
    if bucket.isEmpty then (rest, largest)
    else
      let scope := NameSet.union bucket
      let left := if query.contains name then scope else scope.erase name
      (rest ++ [left], max largest scope.size)

def estimateCost (e : Engine) (scopes : List NameSet) (query : NameSet) : Nat :=
  (e.order.foldl (estimateVariable query) (scopes, Factor.largestScope scopes)).2

open InferenceM

/-- Divides a pinned result by the likelihood of the evidence, which is its sum over the bits of
the query. -/
def normalize (result : Root) (query : NameSet) (queryBits : List Bit) :
    InferenceM σ κ (Posterior σ) := do
  onStore (Store.pin result)
  let total ← onStore (queryBits.foldlM sumOut result)
  onStore (Store.unpin total)
  match ← inspect (Store.constantValue? · total) with
  | none =>
    let bits ← inspect (Store.bitsUsed · total)
    onStore (Store.unpin result)
    throw (.error (.notConstant (bits.map Bit.id)))
  | some likelihood =>
    if Coefficient.isZero likelihood then
      record .impossibleEvidence
      let root ← onStore do Factor.replace result (← Store.constant 0)
      return ⟨query.toList, 0, root⟩
    else
      let root ← onStore do Factor.replace result (← Store.apply result total .divide)
      return ⟨query.toList, Coefficient.toScalar likelihood, root⟩
where
  sumOut (total : Root) (bit : Bit) : StoreM σ κ Root := do
    Factor.replace total (← Store.marginalize total bit .sum)

/-- Answers what the distribution of the queried variables is under the evidence; without
`answer`, only what answering would cost. -/
def run (e : Engine) (query : NameSet) (evidence : Evidence) (answer : Bool) :
    InferenceM σ κ (Outcome σ) := do
  record (.asked query.toList evidence.toList answer)
  if let some name := query.toList.find? evidence.contains then
    throw (.error (.queryEvidenceOverlap name))
  if answer ∧ e.normalization = .range then
    throw (.error .rangeNormalization)
  let relevant ← checked (e.graph.ancestors (query.toList ++ evidence.keys))
  let operations ← checked (e.assignOperations relevant query evidence)
  let tables := relevant.toList.filterMap fun name => e.tables[name]?
  let scopes := tables.map fun t => NameSet.union [.ofList t.scope]
  if !answer then
    let cost := e.estimateCost scopes query
    record (.estimated cost)
    return .cost cost
  let orderBits ← checked (e.order.mapM fun name => (e.encoding.bits name).map (name, ·))
  let queryBits ← checked (e.encoding.expand query.toList)
  let factors := (tables.zip scopes).map fun (t, scope) => (⟨scope, t.root⟩ : Factor)
  let result ← onStore do
    factors.forM fun factor => Store.pin factor.root
    let (factors, _) ← Factor.sweep operations query orderBits factors
    Factor.product (factors.map Factor.root)
  let posterior ← normalize result query queryBits
  record (.likelihood posterior.likelihood)
  return .posterior posterior

end Engine

end BayesDiagram
