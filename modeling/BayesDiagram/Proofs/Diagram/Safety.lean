import BayesDiagram.Proofs.Diagram.Counting
import BayesDiagram.Proofs.Diagram.Runs

/-! No operation on live roots and proper bits fails. What stops an operation is a broken rule: a
cell that is vacant, a branch that is not below its test, a combination of two constants without an
answer, levels that run out. On a store of a run all of these are out of reach, since its diagrams
are well formed under the plain reading, which asks nothing of the arithmetic. -/
namespace BayesDiagram.Store

variable {σ κ : Type} [Scalar σ] [Coefficient σ κ] {config : StoreConfig σ} {s : Store σ κ}
  {R : Reading σ κ config}

def Builds (s : Store σ κ) (step : StoreM σ κ Root) : Prop :=
  ∃ f s', step s = .ok f s' ∧ s'.roots.isOccupied f.index = true

def Stands (s : Store σ κ) (id : NodeId) : Prop :=
  id = .terminal ∨ s.nodes.isOccupied id.index = true

/-- Every operation ends with an answer. -/
structure Faultless (s : Store σ κ) : Prop where
  constant (value : σ) : s.Builds (constant value)
  test {bit : Bit} (proper : bit.Proper) (low high : σ) : s.Builds (test bit low high)
  apply {f g : Root} (left : s.roots.isOccupied f.index = true)
    (right : s.roots.isOccupied g.index = true) (op : Operator) : s.Builds (apply f g op)
  multiply {f : Root} (live : s.roots.isOccupied f.index = true) (scalar : σ) :
    s.Builds (multiply f scalar)
  restrict {f : Root} (live : s.roots.isOccupied f.index = true) (bit : Bit) (value : Bool) :
    s.Builds (restrict f bit value)
  marginalize {f : Root} (live : s.roots.isOccupied f.index = true) (bit : Bit) (op : Operator) :
    s.Builds (marginalize f bit op)
  ofOrderedTree {tree : DecisionTree σ} (proper : ∀ bit ∈ tree.bits, bit.Proper)
    (ordered : tree.Ordered) : s.Builds (ofOrderedTree tree)
  ofUnorderedTree {tree : DecisionTree σ} (proper : ∀ bit ∈ tree.bits, bit.Proper) :
    s.Builds (ofUnorderedTree tree)
  collectGarbage : ∃ s', collectGarbage s = .ok () s'
  edge {f : Root} (live : s.roots.isOccupied f.index = true) :
    ∃ e, s.edge f = .ok e ∧ s.Stands e.node
  descendants {tops : List NodeId} (stand : ∀ id ∈ tops, s.Stands id) :
    ∃ ids, s.descendants tops = .ok ids
  evaluate {f : Root} (live : s.roots.isOccupied f.index = true) (assignment : Assignment) :
    ∃ value, s.evaluate f assignment = .ok value
  top {f : Root} (live : s.roots.isOccupied f.index = true) : ∃ bit, s.top? f = .ok bit
  nodeCount {f : Root} (live : s.roots.isOccupied f.index = true) :
    ∃ count, s.nodeCount f = .ok count
  countNonzero {f : Root} (live : s.roots.isOccupied f.index = true) :
    ∃ used, s.bitsUsed f = .ok used ∧
      ∀ bits, (∀ bit ∈ used, bit ∈ bits) → ∃ count, s.countNonzero f bits = .ok count

theorem YieldsRoot.builds {step : StoreM σ κ Root} {scope : Finset Bit}
    {meaning : Diagram κ → Prop} (yields : s.YieldsRoot R step scope meaning) : s.Builds step := by
  obtain ⟨f, d, stored, s', run, -, -, shown, -⟩ := yields
  refine ⟨f, s', run, ?_⟩
  rw [UniqueTable.isOccupied, shown.1]
  rfl

theorem Sound.leads (sound : s.Sound R) {id : NodeId} (stands : s.Stands id) : s.Leads id := by
  rcases stands with rfl | occupied
  · exact ⟨.constant 0, trivial, rfl⟩
  · obtain ⟨node, stored⟩ := Option.isSome_iff_exists.mp occupied
    obtain ⟨index⟩ := id
    cases index with
    | zero => cases stored
    | succ place =>
      obtain ⟨low, high, -, keeps⟩ := sound.nodes stored
      exact ⟨.test place 0 1 node.bit low high, keeps.shows, rfl⟩

omit [Scalar σ] in
theorem stands_of_shows {d : Diagram κ} (shown : s.nodes.Shows d) : s.Stands d.edge.node := by
  cases d with
  | constant value => exact .inl rfl
  | test place offset scale bit low high => exact .inr (Option.isSome_iff_exists.mpr ⟨_, shown.1⟩)

theorem Sound.faultless (sound : s.Sound R) : s.Faultless where
  constant value := (constant_spec sound value).builds
  test proper low high := (test_spec sound proper low high).builds
  apply left right op := by
    obtain ⟨f, shownLeft, -⟩ := sound.rootShows left
    obtain ⟨g, shownRight, -⟩ := sound.rootShows right
    exact (apply_spec sound shownLeft shownRight op).builds
  multiply live scalar := by
    obtain ⟨d, shown, -⟩ := sound.rootShows live
    exact (multiply_spec sound shown scalar).builds
  restrict live bit value := by
    obtain ⟨d, shown, -⟩ := sound.rootShows live
    exact (restrict_spec sound shown bit value).builds
  marginalize live bit op := by
    obtain ⟨d, shown, -⟩ := sound.rootShows live
    exact (marginalize_spec sound shown bit op).builds
  ofOrderedTree proper ordered := by
    rcases ofOrderedTree_spec sound proper with yields | ⟨unordered, -⟩
    · exact yields.builds
    · exact absurd ordered unordered
  ofUnorderedTree proper := (ofUnorderedTree_spec sound proper).builds
  collectGarbage := by
    obtain ⟨s', run, -⟩ := collectGarbage_spec sound
    exact ⟨s', run⟩
  edge live := by
    obtain ⟨d, shown, -⟩ := sound.rootShows live
    exact ⟨d.edge, shown.edge_eq, stands_of_shows shown.2⟩
  descendants stand := by
    obtain ⟨ids, run, -⟩ := descendants_spec fun id mem => sound.leads (stand id mem)
    exact ⟨ids, run⟩
  evaluate live assignment := by
    obtain ⟨d, shown, keeps⟩ := sound.rootShows live
    exact ⟨_, shown.evaluate_eq keeps.ordered assignment⟩
  top live := by
    obtain ⟨d, shown, -⟩ := sound.rootShows live
    obtain ⟨bit, read, -⟩ := bitOf_edge shown.2
    refine ⟨if bit.isTerminal then none else some bit, ?_⟩
    rw [top?, bind_of_eq_ok shown.edge_eq, bind_of_eq_ok read]
    rfl
  nodeCount live := by
    obtain ⟨d, shown, -⟩ := sound.rootShows live
    obtain ⟨count, run, -⟩ := shown.nodeCount_eq shown
    exact ⟨count, run⟩
  countNonzero live := by
    obtain ⟨d, shown, keeps⟩ := sound.rootShows live
    obtain ⟨used, run, mem⟩ := shown.bitsUsed_set
    refine ⟨_, run, fun bits listed => ?_⟩
    refine countNonzero_total shown keeps.ordered fun bit tested => listed bit ?_
    exact List.mem_map.mpr ⟨bit.id, Std.TreeSet.mem_toList.mpr ((mem bit.id).mpr tested), rfl⟩

/-- On every run, whatever the arithmetic returns, every operation on live roots, proper bits and
trees over them ends with an answer. -/
theorem faultless_of_reachable (reachable : Reachable config s) : s.Faultless :=
  (reachable.sound (R := .plain config)).faultless

theorem faultless_exactTests :
    Reachable .exact exactTests ∧ exactTests.roots.isOccupied 1 = true ∧
      exactTests.roots.isOccupied 2 = true ∧ exactTests.Faultless :=
  ⟨reachable_exactTests, by decide +kernel, by decide +kernel,
    faultless_of_reachable reachable_exactTests⟩

end BayesDiagram.Store
