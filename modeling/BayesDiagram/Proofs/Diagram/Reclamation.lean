import BayesDiagram.Diagram.Reclaim
import BayesDiagram.Proofs.Closure
import BayesDiagram.Proofs.Diagram.Construction
import BayesDiagram.Proofs.Sequences

/-! Pins and flushes. A flush of a sound store never fails; it keeps the pinned roots with all that
they reach and forgets everything else. -/
namespace BayesDiagram

instance : Std.LawfulEqOrd NodeId where
  eq_of_compare {a b} equal := by
    obtain ⟨i⟩ := a
    obtain ⟨j⟩ := b
    exact congrArg NodeId.mk (Nat.compare_eq_eq.mp equal)

namespace Store

variable {σ κ : Type}

/-! ### Reachable nodes -/

def Leads [Coefficient σ κ] (s : Store σ κ) (id : NodeId) : Prop :=
  ∃ d : Diagram κ, s.nodes.Shows d ∧ d.edge.node = id

section Descendants

variable [Coefficient σ κ] {s : Store σ κ}

theorem Leads.children {id : NodeId} (leads : s.Leads id) :
    ∃ ids, descendants.children s id = .ok ids ∧ ∀ child ∈ ids, s.Leads child := by
  obtain ⟨d, shown, rfl⟩ := leads
  cases d with
  | constant value => exact ⟨[], rfl, fun _ mem => absurd mem List.not_mem_nil⟩
  | test place offset scale bit low high =>
    refine ⟨[low.edge.node, high.edge.node], ?_, fun child mem => ?_⟩
    · rw [descendants.children, Diagram.edge_test, node_of_shows shown]
      rfl
    · rcases List.mem_pair.mp mem with rfl | rfl
      · exact ⟨low, shown.2.1, rfl⟩
      · exact ⟨high, shown.2.2, rfl⟩

theorem Leads.of_reached {tops : List NodeId} (leads : ∀ id ∈ tops, s.Leads id) {id : NodeId}
    (reached : Reached (descendants.children s) tops id) : s.Leads id :=
  reached.mem_of_closed leads fun _ ids here found child mem => by
    obtain ⟨ids', found', below⟩ := here.children
    rw [found, Except.ok.injEq] at found'
    exact below child (found' ▸ mem)

theorem Leads.known {id : NodeId} (leads : s.Leads id) :
    id ∈ NodeId.terminal :: s.nodes.indices.map NodeId.mk := by
  obtain ⟨d, shown, rfl⟩ := leads
  cases d with
  | constant value => exact .head _
  | test place offset scale bit low high =>
    refine .tail _ (List.mem_map_of_mem (UniqueTable.mem_indices.mpr ?_))
    rw [shown.1]
    rfl

theorem descendants_set {tops : List NodeId} (leads : ∀ id ∈ tops, s.Leads id) :
    ∃ reached : Std.TreeSet NodeId, s.descendants tops = .ok reached.toList ∧
      ∀ id, id ∈ reached ↔ Reached (descendants.children s) tops id := by
  obtain ⟨reached, run, mem⟩ := mem_closure
    (.ofList (NodeId.terminal :: s.nodes.indices.map NodeId.mk))
    (fun id path => by
      obtain ⟨ids, found, -⟩ := (Leads.of_reached leads path).children
      exact ⟨ids, found⟩)
    (fun id path => Std.TreeSet.mem_ofList.mpr
      (List.contains_iff_mem.mpr (Leads.of_reached leads path).known))
  refine ⟨reached, ?_, mem⟩
  rw [descendants, run]
  rfl

theorem descendants_spec {tops : List NodeId} (leads : ∀ id ∈ tops, s.Leads id) :
    ∃ ids, s.descendants tops = .ok ids ∧
      ∀ id, id ∈ ids ↔ Reached (descendants.children s) tops id := by
  obtain ⟨reached, run, mem⟩ := descendants_set leads
  refine ⟨reached.toList, run, fun id => ?_⟩
  rw [Std.TreeSet.mem_toList, mem]

theorem Shows.of_reached {nodes : UniqueTable σ (Node κ)} {tops : List NodeId} {d : Diagram κ}
    (shown : s.nodes.Shows d) (reached : Reached (descendants.children s) tops d.edge.node)
    (kept : ∀ id node, Reached (descendants.children s) tops id →
      s.nodes.cell? id.index = some node → nodes.cell? id.index = some node) :
    nodes.Shows d := by
  induction d with
  | constant value => trivial
  | test place offset scale bit low high ihLow ihHigh =>
    have found : descendants.children s ⟨place + 1⟩ = .ok [low.edge.node, high.edge.node] := by
      rw [descendants.children, node_of_shows shown]
      rfl
    exact ⟨kept ⟨place + 1⟩ _ reached shown.1,
      ihLow shown.2.1 (.step reached found (.head _)),
      ihHigh shown.2.2 (.step reached found (.tail _ (.head _)))⟩

end Descendants

/-! ### Flushes -/

variable [Scalar σ] [Coefficient σ κ] {config : StoreConfig σ} {R : Reading σ κ config}
  {s s' : Store σ κ}

/-- A step after which pinned roots still show their diagrams, with all pins as before. -/
structure Retains (s s' : Store σ κ) : Prop where
  config : s'.config = s.config
  pins : s'.pins = s.pins
  shows : ∀ f d, s.isPinned f = true → s.RootShows f d → s'.RootShows f d

omit [Scalar σ] [Coefficient σ κ] in
theorem isPinned_iff {f : Root} : s.isPinned f = true ↔ ∃ count, s.pins[f.index]? = some count := by
  rw [isPinned, Std.TreeMap.contains_eq_isSome_getElem?, Option.isSome_iff_exists]

theorem Sound.occupied_of_pinned (sound : s.Sound R) {f : Root} (pinned : s.isPinned f = true) :
    s.roots.isOccupied f.index = true := by
  obtain ⟨count, found⟩ := isPinned_iff.mp pinned
  exact (sound.pins found).2

def pinnedTops (s : Store σ κ) : Except Fault (List NodeId) :=
  s.pins.keys.mapM fun index => (s.edge ⟨index⟩).map Edge.node

theorem pinnedTops_spec (sound : s.Sound R) :
    ∃ tops, s.pinnedTops = .ok tops ∧
      ∀ id, id ∈ tops ↔ ∃ f d, s.isPinned f = true ∧ s.RootShows f d ∧ d.edge.node = id := by
  have pinned {index : Nat} : index ∈ s.pins.keys ↔ s.isPinned ⟨index⟩ = true :=
    Std.TreeMap.mem_keys.trans Std.TreeMap.mem_iff_contains
  have read {f : Root} {d : Diagram κ} (shown : s.RootShows f d) :
      (s.edge f).map Edge.node = .ok d.edge.node := by
    rw [shown.edge_eq]
    rfl
  have root {f : Root} (isPinned : s.isPinned f = true) : ∃ d, s.RootShows f d := by
    obtain ⟨d, shown, -⟩ := sound.rootShows (sound.occupied_of_pinned isPinned)
    exact ⟨d, shown⟩
  obtain ⟨tops, run⟩ := exists_mapM_eq_ok (f := fun index => (s.edge ⟨index⟩).map Edge.node)
    fun index (mem : index ∈ s.pins.keys) => by
      obtain ⟨d, shown⟩ := root (pinned.mp mem)
      exact ⟨d.edge.node, read shown⟩
  refine ⟨tops, run, fun id => (mem_of_mapM_eq_ok run).trans ⟨?_, ?_⟩⟩
  · rintro ⟨index, mem, found⟩
    obtain ⟨d, shown⟩ := root (pinned.mp mem)
    rw [read shown, Except.ok.injEq] at found
    exact ⟨⟨index⟩, d, pinned.mp mem, shown, found⟩
  · rintro ⟨f, d, isPinned, shown, rfl⟩
    exact ⟨f.index, pinned.mpr isPinned, read shown⟩

theorem collectGarbage_run (sound : s.Sound R) :
    ∃ tops alive,
      (∀ id, id ∈ tops ↔ ∃ f d, s.isPinned f = true ∧ s.RootShows f d ∧ d.edge.node = id) ∧
      (∀ id, id ∈ alive ↔ Reached (descendants.children s) tops id) ∧
      collectGarbage s = .ok () (s.clearComputed.drop alive) := by
  obtain ⟨tops, found, top⟩ := pinnedTops_spec sound
  obtain ⟨alive, reached, mem⟩ := descendants_spec fun id isTop => by
    obtain ⟨f, d, -, shown, node⟩ := (top id).mp isTop
    exact ⟨d, shown.2, node⟩
  refine ⟨tops, alive, top, mem, ?_⟩
  have nodes : pinnedNodes s.clearComputed = .ok alive := by
    rw [pinnedNodes]
    change (s.pinnedTops >>= s.descendants) = .ok alive
    rw [found]
    exact reached
  rw [collectGarbage, StoreM.bind_of_ok (StoreM.modify_run ..),
    StoreM.bind_of_ok (StoreM.inspect_of_ok nodes)]
  rfl

omit [Scalar σ] in
theorem cell?_nodes_drop (alive : List NodeId) (i : Nat) :
    (s.drop alive).nodes.cell? i = if ⟨i⟩ ∈ alive then s.nodes.cell? i else none := by
  have same :
      ((Std.TreeSet.ofList (alive.map NodeId.index)).contains i = true) = (⟨i⟩ ∈ alive) := by
    rw [Std.TreeSet.contains_ofList, List.contains_iff_mem, List.mem_map, eq_iff_iff]
    exact ⟨fun ⟨id, mem, equal⟩ => equal ▸ mem, fun mem => ⟨⟨i⟩, mem, rfl⟩⟩
  rw [drop, UniqueTable.cell?_retain]
  simp only [same]

omit [Scalar σ] in
theorem cell?_roots_drop (alive : List NodeId) (i : Nat) :
    (s.drop alive).roots.cell? i = if s.isPinned ⟨i⟩ then s.roots.cell? i else none := by
  rw [drop, UniqueTable.cell?_retain, isPinned]

theorem collectGarbage_spec (sound : s.Sound R) :
    ∃ s', collectGarbage s = .ok () s' ∧ s'.Sound R ∧ s.Retains s' := by
  obtain ⟨tops, alive, top, mem, run⟩ := collectGarbage_run sound
  have complete (f : Root) (d : Diagram κ) (pinned : s.isPinned f = true)
      (shown : s.RootShows f d) : d.edge.node ∈ tops := (top _).mpr ⟨f, d, pinned, shown, rfl⟩
  -- the cells that hold a diagram of a pinned root are all reached from its top
  have kept : ∀ id node, Reached (descendants.children s) tops id →
      s.nodes.cell? id.index = some node →
      (s.clearComputed.drop alive).nodes.cell? id.index = some node := fun id node path stored => by
    rw [cell?_nodes_drop, if_pos ((mem id).mpr path)]
    exact stored
  refine ⟨_, run, ?_, rfl, rfl, fun f d pinned shown => ⟨?_, ?_⟩⟩
  · exact {
      config_eq := sound.config_eq
      nodeCells := UniqueTable.retain_sound sound.nodeCells _
      rootCells := UniqueTable.retain_sound sound.rootCells _
      nodeTolerance := (UniqueTable.retain_tolerance _ _).trans sound.nodeTolerance
      rootTolerance := (UniqueTable.retain_tolerance _ _).trans sound.rootTolerance
      nodes := fun {place node} stored => by
        rw [cell?_nodes_drop] at stored
        split at stored
        · next here =>
          obtain ⟨low, high, equal, keeps⟩ := sound.nodes stored
          exact ⟨low, high, equal, Shows.of_reached keeps.shows ((mem _).mp here) kept,
            keeps.ordered, keeps.holds⟩
        · cases stored
      roots := fun {i e} stored => by
        rw [cell?_roots_drop] at stored
        split at stored
        · next pinned =>
          obtain ⟨d, rfl, keeps⟩ := sound.roots stored
          exact ⟨d, rfl, Shows.of_reached keeps.shows
            (.start (complete ⟨i⟩ d pinned ⟨stored, keeps.shows⟩)) kept, keeps.ordered, keeps.holds⟩
        · cases stored
      applied := fun {key e} stored => by
        change (∅ : Std.TreeMap ApplyKey (Edge κ))[key]? = some e at stored
        rw [Std.TreeMap.getElem?_emptyc] at stored
        cases stored
      restricted := fun {key e} stored => by
        change (∅ : Std.TreeMap RestrictKey (Edge κ))[key]? = some e at stored
        rw [Std.TreeMap.getElem?_emptyc] at stored
        cases stored
      pins := fun {i count} found => by
        obtain ⟨positive, live⟩ := sound.pins found
        refine ⟨positive, ?_⟩
        rw [cell?_roots_drop]
        exact (if_pos (isPinned_iff (s := s) (f := ⟨i⟩) |>.mpr ⟨count, found⟩)) ▸ live }
  · rw [cell?_roots_drop]
    exact (if_pos pinned).trans shown.1
  · exact Shows.of_reached shown.2 (.start (complete f d pinned shown)) kept

theorem flushUnderPressure_run (s : Store σ κ) :
    flushUnderPressure s = .ok false s ∨
      flushUnderPressure s = ((fun _ => true) <$> collectGarbage : StoreM σ κ Bool) s := by
  rw [flushUnderPressure, StoreM.bind_of_ok (StoreM.get_run s)]
  split
  · exact .inr rfl
  · exact .inl rfl

theorem flushUnderPressure_spec (sound : s.Sound R) :
    ∃ flushed s', flushUnderPressure s = .ok flushed s' ∧ s'.Sound R ∧ s.Retains s' := by
  rcases flushUnderPressure_run s with idle | flushes
  · exact ⟨false, s, idle, sound, rfl, rfl, fun f d _ shown => shown⟩
  · obtain ⟨s', run, sound', retains⟩ := collectGarbage_spec sound
    refine ⟨true, s', ?_, sound', retains⟩
    rw [flushes]
    simp only [Functor.map, EStateM.map, run]

/-! ### Pins -/

theorem Sound.pinCount_pos_iff (sound : s.Sound R) {f : Root} :
    0 < s.pinCount f ↔ s.isPinned f = true := by
  rw [isPinned_iff, pinCount, Std.TreeMap.getD_eq_getD_getElem?]
  cases found : s.pins[f.index]? with
  | none => simp
  | some count => simp [(sound.pins found).1]

theorem pin_spec (sound : s.Sound R) {f : Root} (live : s.roots.isOccupied f.index = true) :
    ∃ pins, pin f s = .ok () { s with pins } ∧ ({ s with pins } : Store σ κ).Sound R ∧
      ∀ g, ({ s with pins } : Store σ κ).pinCount g =
        s.pinCount g + if g = f then 1 else 0 := by
  refine ⟨s.pins.insert f.index (s.pinCount f + 1), rfl, { sound with pins := ?_ }, fun g => ?_⟩
  · intro i count found
    rw [Std.TreeMap.getElem?_insert] at found
    split at found
    · next same =>
      cases found
      rw [← Nat.compare_eq_eq.mp same]
      exact ⟨Nat.succ_pos _, live⟩
    · exact sound.pins found
  · simp only [pinCount, Std.TreeMap.getD_insert, Nat.compare_eq_eq]
    obtain ⟨i⟩ := f
    obtain ⟨j⟩ := g
    simp only [Root.mk.injEq, eq_comm (a := i)]
    split
    · next same => rw [same]
    · rfl

omit [Scalar σ] [Coefficient σ κ] in
theorem unpin_of_not_pinned {f : Root} (free : s.isPinned f = false) :
    unpin f s = .error (.rootNotPinned f.index) s := by
  rw [unpin, StoreM.bind_of_ok (StoreM.get_run s)]
  cases found : s.pins[f.index]? with
  | none => rfl
  | some count =>
    rw [isPinned_iff.mpr ⟨count, found⟩] at free
    cases free

theorem unpin_spec (sound : s.Sound R) {f : Root} (pinned : 0 < s.pinCount f) :
    ∃ pins, unpin f s = .ok () { s with pins } ∧ ({ s with pins } : Store σ κ).Sound R ∧
      ∀ g, ({ s with pins } : Store σ κ).pinCount g + (if g = f then 1 else 0) = s.pinCount g := by
  obtain ⟨count, found⟩ := isPinned_iff.mp (sound.pinCount_pos_iff.mp pinned)
  obtain ⟨positive, live⟩ := sound.pins found
  let pins := if 1 < count then s.pins.insert f.index (count - 1) else s.pins.erase f.index
  have entry (i : Nat) : pins[i]? =
      if i = f.index then if 1 < count then some (count - 1) else none else s.pins[i]? := by
    simp only [pins]
    split <;> simp only [Std.TreeMap.getElem?_insert, Std.TreeMap.getElem?_erase,
      Nat.compare_eq_eq, eq_comm (a := f.index)]
  refine ⟨pins, ?_, { sound with pins := ?_ }, fun g => ?_⟩
  · rw [unpin, StoreM.bind_of_ok (StoreM.get_run s)]
    simp only [found]
    rfl
  · intro i count' found'
    rw [entry] at found'
    split at found'
    · next same =>
      split at found'
      · cases found'
        rw [same]
        exact ⟨by omega, live⟩
      · cases found'
    · exact sound.pins found'
  · simp only [pinCount, Std.TreeMap.getD_eq_getD_getElem?, entry]
    obtain ⟨i⟩ := f
    obtain ⟨j⟩ := g
    simp only [Root.mk.injEq]
    by_cases same : j = i
    · subst same
      simp only [if_true, found, Option.getD_some]
      split
      · simp only [Option.getD_some]
        omega
      · simp only [Option.getD_none]
        omega
    · simp only [if_neg same, Nat.add_zero]

end Store

end BayesDiagram
