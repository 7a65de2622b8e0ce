import BayesDiagram.Number.Exact
import BayesDiagram.Proofs.Diagram.Chains
import BayesDiagram.Proofs.Diagram.Effects

/-! Runs of a store: any requests in any order, on live roots and proper bits, whether they are
answered or refused. Every store on a run is sound under every reading, so it is well formed
whatever its arithmetic returns. -/
namespace BayesDiagram

def StoreConfig.exact : StoreConfig Rat where
  precision := .double
  tolerance := 0
  quantum := 1
  capacity := 64
  minFreeRatio := 0
  bucketBits := 4

namespace Store

variable {σ κ : Type} [Scalar σ] [Coefficient σ κ] {config : StoreConfig σ} {s s' : Store σ κ}
  {R : Reading σ κ config}

/-- The stores on the runs from a new one. -/
inductive Reachable (config : StoreConfig σ) : Store σ κ → Prop where
  | created {s : Store σ κ} (new : create config = .ok s) : Reachable config s
  | requested {s : Store σ κ} {request : Request σ} (reachable : Reachable config s)
      (allowed : request.Allowed s) : Reachable config (request.after s)

omit [Coefficient σ κ] in
theorem create_cases (new : create config = .ok s) :
    ∃ nodes roots,
      UniqueTable.create config.bucketBits config.quantum config.tolerance = .ok nodes ∧
      UniqueTable.create config.bucketBits config.quantum config.tolerance = .ok roots ∧
      s = { config, nodes, roots, applied := {}, restricted := {}, pins := ∅, flushes := 0 } := by
  by_cases negative : ¬0 ≤ config.tolerance
  · rw [create, if_pos negative] at new
    cases new
  · rw [create, if_neg negative] at new
    by_cases zero : config.capacity = 0
    · rw [if_pos zero] at new
      cases new
    · rw [if_neg zero] at new
      obtain ⟨nodes, madeNodes, new⟩ := bind_eq_ok.mp new
      obtain ⟨roots, madeRoots, new⟩ := bind_eq_ok.mp new
      cases new
      exact ⟨nodes, roots, madeNodes, madeRoots, rfl⟩

theorem create_sound (new : create config = .ok s) : s.Sound R := by
  obtain ⟨nodes, roots, madeNodes, madeRoots, rfl⟩ := create_cases new
  obtain ⟨nodeCells, nodeTolerance, noNode⟩ := UniqueTable.create_sound madeNodes
  obtain ⟨rootCells, rootTolerance, noRoot⟩ := UniqueTable.create_sound madeRoots
  exact {
    config_eq := rfl
    nodeCells := nodeCells
    rootCells := rootCells
    nodeTolerance := nodeTolerance
    rootTolerance := rootTolerance
    nodes := fun stored => by
      rw [noNode] at stored
      cases stored
    roots := fun stored => by
      rw [noRoot] at stored
      cases stored
    applied := fun stored => by
      rw [Std.TreeMap.getElem?_emptyc] at stored
      cases stored
    restricted := fun stored => by
      rw [Std.TreeMap.getElem?_emptyc] at stored
      cases stored
    pins := fun stored => by
      rw [Std.TreeMap.getElem?_emptyc] at stored
      cases stored }

theorem Reachable.sound (reachable : Reachable config s) : s.Sound R := by
  induction reachable with
  | created new => exact create_sound new
  | requested _ allowed ih => exact after_sound ih allowed

theorem Reachable.induct {P : Store σ κ → Prop} (new : ∀ s, create config = .ok s → P s)
    (grows : ∀ s s', Reachable config s → s.Grows s' → P s → P s')
    (repins : ∀ (s : Store σ κ) pins, P s → P { s with pins })
    (drops : ∀ (s : Store σ κ) alive, P s → P (s.clearComputed.drop alive))
    (reachable : Reachable config s) : P s := by
  induction reachable with
  | created made => exact new _ made
  | @requested s request before allowed ih =>
    have sound := before.sound (R := .plain config)
    rcases (after_cases sound allowed).2 with grown | ⟨pins, same⟩ | run
    · exact grows s _ before grown ih
    · rw [same]
      exact repins s pins ih
    · obtain ⟨tops, alive, -, -, run'⟩ := collectGarbage_run sound
      rw [run] at run'
      injection run' with _ same
      rw [same]
      exact drops s alive ih

/-! ### Unique tables -/

structure Distinct (s : Store σ κ) : Prop where
  nodes : s.nodes.Distinct
  roots : s.roots.Distinct

structure Indexed (config : StoreConfig σ) (s : Store σ κ) : Prop where
  nodes : s.nodes.Indexed config.tolerance
  roots : s.roots.Indexed config.tolerance

omit [Scalar σ] in
theorem Indexed.distinct (indexed : s.Indexed config) : s.Distinct :=
  ⟨indexed.nodes.distinct, indexed.roots.distinct⟩

theorem create_indexed (new : create config = .ok s) : s.Indexed config := by
  obtain ⟨nodes, roots, madeNodes, madeRoots, rfl⟩ := create_cases new
  exact ⟨UniqueTable.create_indexed madeNodes, UniqueTable.create_indexed madeRoots⟩

theorem Reachable.indexed
    (matchingNode : ∀ node : Node κ, Canonical.matching config.tolerance node node = true)
    (matchingEdge : ∀ e : Edge κ, Canonical.matching config.tolerance e e = true)
    (reachable : Reachable config s) : s.Indexed config := by
  refine reachable.induct ?_ ?_ ?_ ?_
  · exact fun s => create_indexed
  · exact fun s s' _ grows indexed => ⟨grows.nodeTable.indexed matchingNode indexed.nodes,
      grows.rootTable.indexed matchingEdge indexed.roots⟩
  · exact fun s pins indexed => ⟨indexed.nodes, indexed.roots⟩
  · exact fun s alive indexed => ⟨indexed.nodes.retain _, indexed.roots.retain _⟩

/-! ### Well-formed stores -/

inductive StandsAt (s : Store σ κ) : NodeId → Nat → Prop where
  | terminal : StandsAt s .terminal Bit.maxId
  | node (id : NodeId) {node : Node κ} (stored : s.nodes.cell? id.index = some node) :
    StandsAt s id node.bit.level

/-- A branch of a test of `bit`: a constant, or an occupied node below that bit. -/
def Below (s : Store σ κ) (bit : Bit) (branch : Edge κ) : Prop :=
  branch.node = .terminal ∧ branch.scale = 0 ∨
    ∃ node, s.nodes.cell? branch.node.index = some node ∧ bit.level < node.bit.level

structure WellFormed (s : Store σ κ) : Prop where
  nodes : ∀ i node, s.nodes.cell? i = some node →
    node.bit.id ≠ 0 ∧ s.Below node.bit node.low ∧ s.Below node.bit node.high
  roots : ∀ i e, s.roots.cell? i = some e → ∃ level, s.StandsAt e.node level
  applied : ∀ (key : ApplyKey) result, s.applied.entries[key]? = some result →
    ∃ (left right : Edge κ) (leftLevel rightLevel level : Nat),
      left.key = key.left ∧ right.key = key.right ∧ s.StandsAt left.node leftLevel ∧
      s.StandsAt right.node rightLevel ∧ s.StandsAt result.node level ∧
      min leftLevel rightLevel ≤ level
  restricted : ∀ (key : RestrictKey) result, s.restricted.entries[key]? = some result →
    ∃ top level, s.StandsAt key.node top ∧ s.StandsAt result.node level ∧ top ≤ level
  pins : ∀ f, s.isPinned f = true → s.roots.isOccupied f.index = true

omit [Scalar σ] in
theorem standsAt_of_shows {d : Diagram κ} (shown : s.nodes.Shows d) :
    s.StandsAt d.edge.node d.level := by
  cases d with
  | constant value => exact .terminal
  | test place offset scale bit low high => exact .node ⟨place + 1⟩ shown.1

omit [Scalar σ] in
theorem below_of_level_lt {d : Diagram κ} (shown : s.nodes.Shows d) {bit : Bit}
    (above : bit.level < d.level) : s.Below bit d.edge := by
  cases d with
  | constant value => exact .inl ⟨rfl, rfl⟩
  | test place offset scale top low high => exact .inr ⟨_, shown.1, above⟩

theorem min_level_le {f g result : Diagram κ} (orderedLeft : f.Ordered) (orderedRight : g.Ordered)
    (bits : result.bits ⊆ f.bits ∪ g.bits) : min f.level g.level ≤ result.level := by
  cases result with
  | constant value => exact Nat.le_trans (Nat.min_le_left _ _) orderedLeft.level_le_maxId
  | test place offset scale bit low high =>
    rcases Finset.mem_union.mp (bits (Finset.mem_insert_self _ _)) with mem | mem
    · exact Nat.le_trans (Nat.min_le_left _ _) (orderedLeft.level_le mem)
    · exact Nat.le_trans (Nat.min_le_right _ _) (orderedRight.level_le mem)

theorem Sound.wellFormed {R : Reading σ κ config} (sound : s.Sound R) : s.WellFormed where
  nodes i node stored := by
    cases i with
    | zero => cases stored
    | succ place =>
      obtain ⟨low, high, equal, keeps⟩ := sound.nodes stored
      obtain ⟨-, lowShown, highShown⟩ := keeps.shows
      obtain ⟨proper, aboveLow, aboveHigh, -, -⟩ := keeps.ordered
      rw [equal]
      exact ⟨proper.nonzero, below_of_level_lt lowShown aboveLow,
        below_of_level_lt highShown aboveHigh⟩
  roots i e stored := by
    obtain ⟨d, rfl, keeps⟩ := sound.roots stored
    exact ⟨d.level, standsAt_of_shows keeps.shows⟩
  applied key result stored := by
    obtain ⟨f, g, d, rfl, entry⟩ := sound.applied stored
    exact ⟨f.edge, g.edge, f.level, g.level, d.level, entry.left, entry.right,
      standsAt_of_shows entry.keepsLeft.shows, standsAt_of_shows entry.keepsRight.shows,
      standsAt_of_shows entry.keeps.shows,
      min_level_le entry.keepsLeft.ordered entry.keepsRight.ordered entry.bits⟩
  restricted key result stored := by
    obtain ⟨place, top, low, high, d, rfl, entry⟩ := sound.restricted stored
    let node : Diagram κ := .test place 0 1 top low high
    have bits : d.bits ⊆ node.bits ∪ node.bits :=
      entry.bits.trans ((Finset.erase_subset _ _).trans Finset.subset_union_left)
    have below := min_level_le entry.keepsNode.ordered entry.keepsNode.ordered bits
    rw [Nat.min_self] at below
    refine ⟨node.level, d.level, ?_, standsAt_of_shows entry.keeps.shows, below⟩
    rw [entry.node]
    exact standsAt_of_shows entry.keepsNode.shows
  pins f pinned := sound.occupied_of_pinned pinned

/-- Every store on a run is well formed, whatever its arithmetic returns. -/
theorem wellFormed_of_reachable (reachable : Reachable config s) : s.WellFormed :=
  (reachable.sound (R := Reading.plain config)).wellFormed

def exact : Store Rat Rat where
  config := .exact
  nodes := ⟨4, 1, 0, #[], ∅, 1, 0⟩
  roots := ⟨4, 1, 0, #[], ∅, 1, 0⟩
  applied := {}
  restricted := {}
  pins := ∅
  flushes := 0

def exactTests : Store Rat Rat :=
  (Request.test ⟨2⟩ 1 3).after ((Request.test ⟨1⟩ 0 1).after exact)

theorem reachable_exactTests : Reachable .exact exactTests :=
  .requested (.requested (.created rfl) ⟨by decide, by decide⟩) ⟨by decide, by decide⟩

theorem wellFormed_after_flush :
    let requests : List (Request Rat) := [.apply ⟨1⟩ ⟨2⟩ .product, .pin ⟨3⟩, .collectGarbage]
    let s := requests.foldl (fun s request => request.after s) exactTests
    Reachable .exact s ∧ s.WellFormed := by
  intro requests s
  have reachable : Reachable .exact s := by
    refine .requested (.requested (.requested reachable_exactTests ?_) ?_) ?_
    · exact ⟨by decide +kernel, by decide +kernel⟩
    · show _ = true
      decide +kernel
    · trivial
  exact ⟨reachable, wellFormed_of_reachable reachable⟩

end Store

end BayesDiagram
