import BayesDiagram.Proofs.Exact.Cofactors
import Mathlib.Order.Bounds.Basic

/-! Ranges. At any tolerance a new node is normalized, a node that is found in place of a near one
has been normalized before, and every transform has a positive factor. So all nodes of a store span
the unit interval, and the bounds that an edge shows are the least and the greatest value of its
function; what a tolerance loses is which function it is. -/
namespace BayesDiagram

def Spans (F : (Bit → Bool) → Rat) (least greatest : Rat) : Prop :=
  IsLeast (Set.range F) least ∧ IsGreatest (Set.range F) greatest

variable {config : StoreConfig Rat}

theorem Diagram.spans {d : Diagram Rat} (normal : d.Normal) (ordered : d.Ordered) :
    Spans (fun a => d.value a) d.edge.least d.edge.greatest := by
  obtain ⟨⟨a, least⟩, ⟨b, greatest⟩⟩ := span_attained normal ordered
  refine ⟨⟨⟨a, least⟩, ?_⟩, ⟨b, greatest⟩, ?_⟩
  · rintro _ ⟨c, rfl⟩
    exact (value_mem_span normal c).1
  · rintro _ ⟨c, rfl⟩
    exact (value_mem_span normal c).2

namespace Store

variable {s : Store Rat Rat} {f : Root}

/-- The function of a node, read off the edge that leads to it without a transform. -/
def NodeDenotes (s : Store Rat Rat) (id : NodeId) (function : (Bit → Bool) → Rat) : Prop :=
  ∀ a : Bit → Bool,
    s.evaluateLevels (fun bit => some (a bit)) levelCount 0 1 ⟨0, 1, id⟩ = .ok (some (function a))

/-- The edges of a store: those of roots, branches and memoized results, and the operands that a
memoized result is filed under. -/
inductive HasEdge (s : Store Rat Rat) : Edge Rat → Prop where
  | root {i : Nat} {e : Edge Rat} (stored : s.roots.cell? i = some e) : HasEdge s e
  | low {i : Nat} {node : Node Rat} (stored : s.nodes.cell? i = some node) : HasEdge s node.low
  | high {i : Nat} {node : Node Rat} (stored : s.nodes.cell? i = some node) : HasEdge s node.high
  | applied {key : ApplyKey} {e : Edge Rat} (stored : s.applied.entries[key]? = some e) :
    HasEdge s e
  | operand {key : ApplyKey} {e result : Edge Rat}
    (stored : s.applied.entries[key]? = some result)
    (named : e.key = key.left ∨ e.key = key.right) : HasEdge s e
  | restricted {key : RestrictKey} {e : Edge Rat} (stored : s.restricted.entries[key]? = some e) :
    HasEdge s e

theorem Reachable.tolerable (reachable : Reachable config s) : 0 ≤ config.tolerance := by
  induction reachable with
  | created new =>
    by_contra negative
    rw [create, if_pos negative] at new
    cases new
  | requested _ _ ih => exact ih

theorem Sound.normal_of_hasEdge {tolerable : 0 ≤ config.tolerance}
    (sound : s.Sound (Reading.normal tolerable)) {e : Edge Rat} (here : s.HasEdge e) :
    ∃ d : Diagram Rat, d.edge = e ∧ d.Normal := by
  have branches {i : Nat} {node : Node Rat} (stored : s.nodes.cell? i = some node) :
      (∃ d : Diagram Rat, d.edge = node.low ∧ d.Normal) ∧
        ∃ d : Diagram Rat, d.edge = node.high ∧ d.Normal := by
    cases i with
    | zero => cases stored
    | succ place =>
      obtain ⟨low, high, made, keeps⟩ := sound.nodes stored
      rw [made]
      exact ⟨⟨low, rfl, keeps.lowBranch.holds⟩, ⟨high, rfl, keeps.highBranch.holds⟩⟩
  cases here with
  | root stored =>
    obtain ⟨d, rfl, keeps⟩ := sound.roots stored
    exact ⟨d, rfl, keeps.holds⟩
  | low stored => exact (branches stored).1
  | high stored => exact (branches stored).2
  | applied stored =>
    obtain ⟨f, g, d, rfl, entry⟩ := sound.applied stored
    exact ⟨d, rfl, entry.keeps.holds⟩
  | operand stored named =>
    obtain ⟨f, g, d, -, entry⟩ := sound.applied stored
    rcases named with left | right
    · exact ⟨f, Exact.edge_eq_of_key_eq (entry.left.trans left.symm), entry.keepsLeft.holds⟩
    · exact ⟨g, Exact.edge_eq_of_key_eq (entry.right.trans right.symm), entry.keepsRight.holds⟩
  | restricted stored =>
    obtain ⟨place, top, low, high, d, rfl, entry⟩ := sound.restricted stored
    exact ⟨d, rfl, entry.keeps.holds⟩

theorem scale_pos_of_normal {d : Diagram Rat} (normal : d.Normal)
    (decides : d.edge.isConstant = false) : 0 < d.edge.scale := by
  cases d with
  | constant v => cases decides
  | test place offset scale bit low high => exact normal.scale_pos

theorem RootShows.spans {tolerable : 0 ≤ config.tolerance} {d : Diagram Rat}
    (shown : s.RootShows f d) (keeps : (Reading.normal tolerable).Keeps s.nodes d) :
    ∃ F least greatest, s.Denotes f F ∧ s.least f = .ok least ∧ s.greatest f = .ok greatest ∧
      Spans F least greatest := by
  refine ⟨fun a => d.value a, d.edge.least, d.edge.greatest, fun a => ?_, ?_, ?_,
    Diagram.spans keeps.holds keeps.ordered⟩
  · exact shown.evaluate_covered keeps.ordered fun _ _ => rfl
  · rw [least, shown.edge_eq]
    rfl
  · rw [greatest, shown.edge_eq]
    rfl

theorem spans_node {tolerable : 0 ≤ config.tolerance} {place : Nat} {bit : Bit}
    {low high : Diagram Rat}
    (keeps : (Reading.normal tolerable).Keeps s.nodes (.test place 0 1 bit low high)) :
    ∃ F, s.NodeDenotes ⟨place + 1⟩ F ∧ Spans F 0 1 := by
  have spans := Diagram.spans keeps.holds keeps.ordered
  have greatest : (Diagram.test place (0 : Rat) 1 bit low high).edge.greatest = 1 := zero_add 1
  rw [greatest] at spans
  refine ⟨_, fun a => ?_, spans⟩
  have enough : Bit.maxId < levelCount + (Diagram.test place (0 : Rat) 1 bit low high).level :=
    Nat.lt_add_right _ (Nat.lt_succ_self _)
  have read :=
    evaluateLevels_edge keeps.shows keeps.ordered (fun bit => some (a bit)) enough 0 1
  rw [Diagram.evaluate_covered fun _ _ => rfl] at read
  refine read.trans ?_
  congr 2
  show 0 + 1 * _ = _
  ring

/-- In every store on a run, at any tolerance, the occupied nodes span the unit interval, all edges
to them have positive scales, and the bounds that are read off a live root are the least and the
greatest value of its function. -/
theorem ranges_exact (reachable : Reachable config s) :
    (∀ id : NodeId, s.nodes.isOccupied id.index = true →
      ∃ F, s.NodeDenotes id F ∧ Spans F 0 1) ∧
    (∀ e, s.HasEdge e → e.isConstant = false → 0 < e.scale) ∧
    ∀ f : Root, s.roots.isOccupied f.index = true → ∃ F least greatest, s.Denotes f F ∧
      s.least f = .ok least ∧ s.greatest f = .ok greatest ∧ Spans F least greatest := by
  have sound : s.Sound (Reading.normal reachable.tolerable) := reachable.sound
  refine ⟨fun ⟨index⟩ occupied => ?_, fun e here decides => ?_, fun f live => ?_⟩
  · obtain ⟨node, stored⟩ := Option.isSome_iff_exists.mp occupied
    cases index with
    | zero => cases stored
    | succ place =>
      obtain ⟨low, high, -, keeps⟩ := sound.nodes stored
      exact spans_node keeps
  · obtain ⟨d, rfl, normal⟩ := sound.normal_of_hasEdge here
    exact scale_pos_of_normal normal decides
  · obtain ⟨d, shown, keeps⟩ := sound.rootShows live
    exact shown.spans keeps

def nearTrees (tolerance : Rat) : Store Rat Rat :=
  let tree (x : Rat) : DecisionTree Rat :=
    .branch ⟨1⟩ (.branch ⟨2⟩ (.leaf 0) (.leaf 1)) (.leaf x)
  let start : Store Rat Rat := { exact with
    config := { StoreConfig.exact with tolerance }
    nodes := { exact.nodes with tolerance }
    roots := { exact.roots with tolerance } }
  let first := (Request.ofOrderedTree (tree (1 / 2))).after start
  (Request.ofOrderedTree (tree (11 / 20))).after first

theorem reachable_nearTrees {tolerance : Rat} (tolerable : 0 ≤ tolerance) :
    Reachable { StoreConfig.exact with tolerance } (nearTrees tolerance) := by
  have first : (⟨1⟩ : Bit).Proper := ⟨by decide, by decide⟩
  have second : (⟨2⟩ : Bit).Proper := ⟨by decide, by decide⟩
  refine .requested (.requested (.created ?_) ?_) ?_
  · rw [create, if_neg (not_not.mpr tolerable)]
    rfl
  · simp [Request.Allowed, DecisionTree.bits, first, second]
  · simp [Request.Allowed, DecisionTree.bits, first, second]

theorem ranges_exact_nearTrees :
    let s := nearTrees (1 / 10)
    Reachable { StoreConfig.exact with tolerance := 1 / 10 } s ∧
    s.nodes.isOccupied 2 = true ∧ s.nodes.isOccupied 3 = false ∧
    (∀ id : NodeId, s.nodes.isOccupied id.index = true → ∃ F, s.NodeDenotes id F ∧ Spans F 0 1) ∧
    (∀ e, s.HasEdge e → e.isConstant = false → 0 < e.scale) ∧
    ∀ f : Root, s.roots.isOccupied f.index = true → ∃ F least greatest, s.Denotes f F ∧
      s.least f = .ok least ∧ s.greatest f = .ok greatest ∧ Spans F least greatest := by
  intro s
  have reachable : Reachable { StoreConfig.exact with tolerance := 1 / 10 } s :=
    reachable_nearTrees (by decide +kernel)
  exact ⟨reachable, by decide +kernel, by decide +kernel, ranges_exact reachable⟩

end Store

end BayesDiagram
