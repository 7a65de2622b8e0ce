import BayesDiagram.Inference.Query

/-! A loaded network: ordered, encoded, compiled and ready for queries by labels. -/
namespace BayesDiagram

structure ModelConfig (σ : Type) where
  store : StoreConfig σ
  normalization : Normalization

structure Model (σ : Type) extends Engine where
  config : ModelConfig σ
  network : Network σ
  bitOrder : List Bit

namespace Model

open Failure

variable {σ κ : Type} [Scalar σ] [Coefficient σ κ]

omit [Scalar σ] in
def graphOf (n : Network σ) : Except (Error σ) DependencyGraph :=
  let names := (n.declared.map Variable.name).filter n.tables.contains
  Network.dependencies names (names.filterMap n.table?)

omit [Scalar σ] in
/-- Allocates the bits of the variables along an order, which so becomes the diagram order. -/
def encodingOf (n : Network σ) (order : List String) : Except (Failure σ) Encoding :=
  order.foldlM (fun encoding name => do
    let v ← liftError (n.getVariable name)
    liftFault (encoding.allocate name v.arity)) {}

/-- Loads a network: checks it, orders and encodes the variables that have a table, and compiles
the tables. A variable without a table is dropped; a table with such a parent is an error. -/
def load (n : Network σ) (config : ModelConfig σ) (ordering : DependencyGraph → List String) :
    Except (Failure σ) (Model σ × Workspace σ κ) := do
  liftError n.validate
  let graph ← liftError (graphOf n)
  let order := ordering graph
  liftError (graph.checkOrder order)
  let encoding ← encodingOf n order
  let bitOrder ← liftError (encoding.expand order)
  let store ← liftFault (Store.create config.store)
  let names := n.declared.map Variable.name
  let dropped := names.filter (!n.tables.contains ·)
  let journal := (dropped.map Event.dropped ++ [Event.ordered order]).toArray
  let compiler : Compiler σ := ⟨n, encoding⟩
  let compileAll : InferenceM σ κ (List CompiledTable) := do
    let tables ← (graph.names.filterMap n.table?).mapM compiler.compile
    let nodes := (← get).store.nodes.size
    InferenceM.record (.loaded graph.size encoding.size nodes)
    return tables
  match compileAll ⟨store, journal⟩ with
  | .error failure _ => throw failure
  | .ok tables workspace =>
    let tables := .ofList (tables.map fun t => (t.head, t))
    return ({ graph, encoding, tables, order, normalization := config.normalization, config,
              network := n, bitOrder }, workspace)

/-- Answers what the distribution of the queried variables is, given some labels; without
`answer`, only what answering would cost. -/
def query (m : Model σ) (names : List String) (given : List (String × String)) (answer : Bool) :
    InferenceM σ κ (Outcome σ) := do
  let evidence ← given.foldlM (fun (evidence : Evidence) (name, label) => do
    let index ← InferenceM.checked (m.network.valueIndex name label)
    return evidence.insert name index) ∅
  m.run (.ofList names) evidence answer

def evaluate (m : Model σ) (s : Store σ κ) (p : Posterior σ) (labels : List (String × String)) :
    Except (Failure σ) σ := do
  let chosen : Std.ExtTreeMap String String := .ofList labels
  let bits ← p.query.mapM fun name => do
    match chosen[name]? with
    | none => throw (Failure.error (.missingAssignment [name]))
    | some label =>
      liftError do m.encoding.encode name (← m.network.valueIndex name label)
  match ← liftFault (s.evaluate p.root (.ofList bits.flatten)) with
  | some value => return Coefficient.toScalar value
  | none => throw (.error (.missingAssignment p.query))

end Model

def Posterior.release {σ κ : Type} (p : Posterior σ) : StoreM σ κ Unit :=
  Store.unpin p.root

def CompiledTable.release {σ κ : Type} (t : CompiledTable) : StoreM σ κ Unit :=
  Store.unpin t.root

end BayesDiagram
