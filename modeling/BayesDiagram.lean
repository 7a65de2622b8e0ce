import BayesDiagram.Number.Binary64
import BayesDiagram.Number.Decimal
import BayesDiagram.Number.Arithmetic
import BayesDiagram.Number.DoubleDouble
import BayesDiagram.Number.Exact
import BayesDiagram.Number.Extended
import BayesDiagram.Fault
import BayesDiagram.Closure
import BayesDiagram.Diagram.Operator
import BayesDiagram.Diagram.Edge
import BayesDiagram.Diagram.UniqueTable
import BayesDiagram.Diagram.ComputedTable
import BayesDiagram.Diagram.Store
import BayesDiagram.Diagram.Apply
import BayesDiagram.Diagram.Restrict
import BayesDiagram.Diagram.DecisionTree
import BayesDiagram.Diagram.Build
import BayesDiagram.Diagram.Inspect
import BayesDiagram.Diagram.Reclaim
import BayesDiagram.Diagram.Drawing
import BayesDiagram.Failure
import BayesDiagram.Text.CharClass
import BayesDiagram.Text.Extending
import BayesDiagram.Text.Listing
import BayesDiagram.Text.Unassigned
import BayesDiagram.Text.Visible
import BayesDiagram.Network.ConditionalTable
import BayesDiagram.Network.DependencyGraph
import BayesDiagram.Network.EliminationOrder
import BayesDiagram.Network.Network
import BayesDiagram.Network.Encoding
import BayesDiagram.Inference.Journal
import BayesDiagram.Inference.Compile
import BayesDiagram.Inference.Query
import BayesDiagram.Inference.Model
import BayesDiagram.Proofs.Sequences
import BayesDiagram.Proofs.Diagram.Cells
import BayesDiagram.Proofs.Diagram.Unfolding
import BayesDiagram.Proofs.Diagram.Invariant
import BayesDiagram.Proofs.Diagram.Construction
import BayesDiagram.Proofs.Diagram.Combination
import BayesDiagram.Proofs.Diagram.Restriction
import BayesDiagram.Proofs.Diagram.Building
import BayesDiagram.Proofs.Closure
import BayesDiagram.Proofs.Diagram.Reclamation
import BayesDiagram.Proofs.Diagram.Counting
import BayesDiagram.Proofs.Diagram.Chains
import BayesDiagram.Proofs.Exact.Nearness
import BayesDiagram.Proofs.Diagram.TableRuns
import BayesDiagram.Proofs.Exact.Representatives
import BayesDiagram.Proofs.Diagram.Effects
import BayesDiagram.Proofs.Diagram.Runs
import BayesDiagram.Proofs.Diagram.Safety
import BayesDiagram.Proofs.Diagram.TestedBits
import BayesDiagram.Proofs.Diagram.UsableBits
import BayesDiagram.Proofs.Diagram.Pins
import BayesDiagram.Proofs.Exact.Value
import BayesDiagram.Proofs.Exact.NormalForm
import BayesDiagram.Proofs.Exact.Shortcut
import BayesDiagram.Proofs.Exact.Reading
import BayesDiagram.Proofs.Exact.Pointwise
import BayesDiagram.Proofs.Exact.Canonicity
import BayesDiagram.Proofs.Exact.Memoization
import BayesDiagram.Proofs.Exact.Cofactors
import BayesDiagram.Proofs.Exact.Trees
import BayesDiagram.Proofs.Exact.Ranges
import BayesDiagram.Proofs.Exact.Support
import BayesDiagram.Proofs.Network.DenseTables
import BayesDiagram.Proofs.Network.Names
import BayesDiagram.Proofs.Network.Blocks
import BayesDiagram.Proofs.Network.Sums
import BayesDiagram.Proofs.Network.Ancestors
import BayesDiagram.Proofs.Network.Dependencies
import BayesDiagram.Proofs.Network.Growth
import BayesDiagram.Proofs.Network.Acyclic
import BayesDiagram.Proofs.Network.TopologicalOrder
import BayesDiagram.Proofs.Network.Validation
import BayesDiagram.Proofs.Network.Rows
import BayesDiagram.Proofs.Network.Acceptance
import BayesDiagram.Proofs.Inference.Ledger
import BayesDiagram.Proofs.Inference.Sweep
import BayesDiagram.Proofs.Inference.Scopes
import BayesDiagram.Proofs.Inference.Roles
import BayesDiagram.Proofs.Inference.Answer
import BayesDiagram.Proofs.Inference.Request
import BayesDiagram.Proofs.Inference.Paths
import BayesDiagram.Proofs.Inference.Compilation
import BayesDiagram.Proofs.Inference.Loading
import BayesDiagram.Proofs.Inference.Sessions
import BayesDiagram.Proofs.Inference.PinDiscipline
import BayesDiagram.Proofs.Inference.Labels
import BayesDiagram.Proofs.Inference.Refusals
import BayesDiagram.Proofs.Inference.ScopeSafety
import BayesDiagram.Proofs.Inference.Operations
import BayesDiagram.Proofs.Network.Numbering
import BayesDiagram.Proofs.Network.RoundTrip
import BayesDiagram.Proofs.Inference.LoadOutcome
import BayesDiagram.Proofs.Inference.DryRun
import BayesDiagram.Proofs.Network.InducedWidth
import BayesDiagram.Proofs.Inference.DryRunWidth
import BayesDiagram.Proofs.Network.Neighbourhoods
import BayesDiagram.Proofs.Network.Forests
import BayesDiagram.Proofs.Network.MinFill
import BayesDiagram.Proofs.Network.EliminationGame
import BayesDiagram.Proofs.Inference.ForestCost
import BayesDiagram.Proofs.Inference.Orderings
import BayesDiagram.Proofs.Exact.Elimination
import BayesDiagram.Proofs.Exact.Posterior
import BayesDiagram.Proofs.Exact.Compilation
import BayesDiagram.Proofs.Exact.Sessions
import BayesDiagram.Proofs.Exact.Pruning
import BayesDiagram.Proofs.Exact.Enumeration
import BayesDiagram.Proofs.Exact.NoisyMax
import BayesDiagram.Proofs.Exact.Probabilities
import BayesDiagram.Proofs.Exact.RareEvidence
