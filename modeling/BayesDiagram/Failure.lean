import BayesDiagram.Fault
import BayesDiagram.Number.Decimal
import BayesDiagram.Text.Listing

/-! Errors of networks and queries: what is wrong with an input that a caller may well give. A
failure is an error or a fault. -/
namespace BayesDiagram

inductive TableDefect (σ : Type) where
  | sizeCount (sizes expected : Nat)
  | entryCount (entries expected : Nat)
  | rowLength (values expected : Nat)
  | repeatedName (name : String)
  | assignmentLength (assignment : List Nat) (expected : Nat)
  | probability (value : σ) (assignment : List Nat)
  | rowSum (row : List Nat) (sum : σ)

inductive OrderDefect where
  | unknown (name : String)
  | repeated (name : String)
  | missing (name : String)

inductive Error (σ : Type) where
  | unknownVariable (name : String)
  | duplicateVariable (name : String)
  | unknownValue (name label : String)
  | valueOutOfDomain (name : String) (index size : Nat)
  | malformedTable (head : String) (defect : TableDefect σ)
  | cyclicDependency (name : String)
  | invalidOrder (defect : OrderDefect)
  | evidenceMarginalized (name : String)
  | queryEvidenceOverlap (name : String)
  | notConstant (bits : List Nat)
  | rangeNormalization
  | missingAssignment (names : List String)

inductive Failure (σ : Type) where
  | error (e : Error σ)
  | fault (f : Fault)

section

variable {σ : Type}

def TableDefect.message [DecimalText σ] : TableDefect σ → String
  | sizeCount sizes expected => s!"{sizes} domain sizes given for {expected} variables"
  | entryCount entries expected => s!"dense table has {entries} entries, expected {expected}"
  | rowLength values expected => s!"row has {values} parent values, expected {expected}"
  | repeatedName name => s!"`{name}` appears more than once in the scope"
  | assignmentLength assignment expected =>
    s!"assignment {Listing.numbers assignment} has {assignment.length} values, expected {expected}"
  | probability value assignment =>
    s!"probability {DecimalText.shortest value} at {Listing.numbers assignment}"
  | rowSum row sum => s!"row {Listing.numbers row} sums to {DecimalText.shortest sum}"

def OrderDefect.message : OrderDefect → String
  | unknown name => s!"`{name}` is not a model variable"
  | repeated name => s!"`{name}` appears twice"
  | missing name => s!"`{name}` is missing"

def Error.message [DecimalText σ] : Error σ → String
  | unknownVariable name => s!"unknown variable `{name}`"
  | duplicateVariable name => s!"variable `{name}` is declared twice"
  | unknownValue name label => s!"`{label}` is not a value of variable `{name}`"
  | valueOutOfDomain name index size =>
    s!"value index {index} is outside the domain of `{name}` (size {size})"
  | malformedTable head defect => s!"malformed CPT for `{head}`: {defect.message}"
  | cyclicDependency name => s!"variable `{name}` lies on a dependency cycle"
  | invalidOrder defect =>
    s!"elimination order is not a permutation of the model variables: {defect.message}"
  | evidenceMarginalized name => s!"evidence variable `{name}` is marked for marginalization"
  | queryEvidenceOverlap name => s!"variable `{name}` is both queried and observed"
  | notConstant bits => s!"normalizing constant still depends on {Listing.numbers bits}"
  | rangeNormalization => "range normalization is not implemented"
  | missingAssignment names => s!"no value given for query variable `{Listing.commas names}`"

namespace Failure

variable {α : Type}

def liftError : Except (Error σ) α → Except (Failure σ) α :=
  Except.mapError .error

def liftFault : Except Fault α → Except (Failure σ) α :=
  Except.mapError .fault

end Failure

end

end BayesDiagram
