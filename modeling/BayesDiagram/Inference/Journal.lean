import BayesDiagram.Diagram.Reclaim
import BayesDiagram.Failure

/-! The workspace of inference: a diagram store together with the journal of what was done. -/
namespace BayesDiagram

inductive Strategy where
  | enumeration
  | noisyMax
deriving DecidableEq, Repr

def Strategy.text : Strategy → String
  | enumeration => "enumeration"
  | noisyMax => "noisy-max"

structure CompiledTable where
  head : String
  parents : List String
  entryCount : Nat
  nodeCount : Nat
  support : Nat
  strategy : Strategy
  root : Root

namespace CompiledTable

def scope (t : CompiledTable) : List String :=
  t.head :: t.parents

def compressionRatio {σ : Type} [Scalar σ] (t : CompiledTable) : σ :=
  Nat.cast t.nodeCount / Nat.cast (max t.entryCount 1)

end CompiledTable

inductive Event (σ : Type) where
  | dropped (name : String)
  | ordered (names : List String)
  | compiled (table : CompiledTable)
  | loaded (size bits nodes : Nat)
  | asked (query : List String) (evidence : List (String × Nat)) (answer : Bool)
  | estimated (cost : Nat)
  | impossibleEvidence
  | likelihood (p : σ)

namespace Event

variable {σ : Type}

def isWarning : Event σ → Bool
  | dropped _ => true
  | _ => false

def text [Scalar σ] [DecimalText σ] : Event σ → String
  | dropped name => s!"variable {name} has no CPT and is dropped from the model"
  | ordered names => s!"elimination order: {Listing.names names}"
  | compiled t =>
    let ratio := DecimalText.fixed 3 (t.compressionRatio : σ)
    s!"compiled CPT of {t.head} ({t.strategy.text}): {t.nodeCount} nodes for " ++
      s!"{t.entryCount} entries, ratio {ratio}, support {t.support}"
  | loaded size bits nodes =>
    s!"loaded {size} variables ({bits} bits), {nodes} diagram nodes"
  | asked query evidence answer =>
    let query := Listing.braces (query.map Listing.quoted)
    let evidence := Listing.braces (evidence.map fun (name, index) =>
      s!"{Listing.quoted name}: {index}")
    s!"query {query} given {evidence} (do_calc = {answer})"
  | estimated cost => s!"dry run: largest factor has {cost} variables"
  | impossibleEvidence => "evidence has probability zero"
  | likelihood p => s!"likelihood of the evidence: {DecimalText.shortest p}"

end Event

structure Workspace (σ κ : Type) where
  store : Store σ κ
  journal : Array (Event σ) := #[]

/-- Steps of inference. A step that fails keeps the changes it made before. -/
abbrev InferenceM (σ κ : Type) := EStateM (Failure σ) (Workspace σ κ)

namespace InferenceM

variable {σ κ α : Type}

def onStore (step : StoreM σ κ α) : InferenceM σ κ α := fun w =>
  match step w.store with
  | .ok answer store => .ok answer { w with store }
  | .error fault store => .error (.fault fault) { w with store }

def inspect (read : Store σ κ → Except Fault α) : InferenceM σ κ α :=
  onStore (StoreM.inspect read)

def checked : Except (Error σ) α → InferenceM σ κ α
  | .ok answer => pure answer
  | .error e => throw (.error e)

def record (event : Event σ) : InferenceM σ κ Unit :=
  modify fun w => { w with journal := w.journal.push event }

end InferenceM

end BayesDiagram
