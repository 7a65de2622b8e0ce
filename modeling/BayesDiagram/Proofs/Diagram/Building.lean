import BayesDiagram.Diagram.Build
import BayesDiagram.Proofs.Diagram.Restriction
import Mathlib.Data.Finset.Lattice.Lemmas

/-! Diagrams from constants, tests and decision trees. Only the order of the bits can make a
construction fail; what it added before it failed leaves the store sound. -/
namespace BayesDiagram

namespace DecisionTree

variable {α : Type}

def bits : DecisionTree α → Finset Bit
  | leaf _ => ∅
  | branch bit low high => insert bit (low.bits ∪ high.bits)

def Ordered : DecisionTree α → Prop
  | leaf _ => True
  | branch bit low high =>
    (∀ other ∈ low.bits ∪ high.bits, bit.id < other.id) ∧ low.Ordered ∧ high.Ordered

theorem forall_mem_bits_branch {bit : Bit} {low high : DecisionTree α} {p : Bit → Prop} :
    (∀ other ∈ (branch bit low high).bits, p other) ↔
      p bit ∧ (∀ other ∈ low.bits, p other) ∧ ∀ other ∈ high.bits, p other := by
  simp only [bits, Finset.mem_insert, Finset.mem_union, or_imp, forall_and, forall_eq]

end DecisionTree

variable {σ κ : Type} [Scalar σ] [Coefficient σ κ] {config : StoreConfig σ}

namespace Reading

/-- A diagram built from a tree by one test for each branch. -/
def Branches (R : Reading σ κ config) : DecisionTree σ → Diagram κ → Prop
  | .leaf value, d =>
    d = .constant (Coefficient.round config.precision (Coefficient.ofScalar value))
  | .branch bit low high, d =>
    ∃ lower upper, R.Branches low lower ∧ R.Branches high upper ∧ R.Decides bit lower upper d

/-- A diagram built from a tree by products with the two indicators of each branch. -/
def Selects (R : Reading σ κ config) : DecisionTree σ → Diagram κ → Prop
  | .leaf value, d =>
    d = .constant (Coefficient.round config.precision (Coefficient.ofScalar value))
  | .branch bit low high, d =>
    ∃ lower upper isLow isHigh lower' upper', R.Selects low lower ∧ R.Selects high upper ∧
      R.Decides bit (.constant 1) (.constant 0) isLow ∧
      R.Decides bit (.constant 0) (.constant 1) isHigh ∧
      R.Combines .product isLow lower lower' ∧ R.Combines .product isHigh upper upper' ∧
      R.Combines .sum lower' upper' d

end Reading

namespace Store

variable {R : Reading σ κ config} {s : Store σ κ}

theorem constant_spec (sound : s.Sound R) (value : σ) :
    s.YieldsRoot R (constant value) ∅ (· = .constant (Coefficient.ofScalar value)) := by
  have yields : s.Yields R (pure (Edge.constant (Coefficient.ofScalar value) : Edge κ)) ∅
      (· = .constant (Coefficient.ofScalar value)) :=
    ⟨.constant (Coefficient.ofScalar value), s, rfl, .refl s, sound, R.keeps_constant _,
      Finset.empty_subset _, rfl⟩
  exact yields.intern

theorem makeNode_constants_spec (sound : s.Sound R) {bit : Bit} (proper : bit.Proper)
    (low high : κ) :
    s.Yields R (makeNode bit (.constant low) (.constant high)) {bit}
      (R.Decides bit (.constant low) (.constant high)) :=
  makeNode_spec sound (R.keeps_constant low) (R.keeps_constant high) proper proper.level_lt
    proper.level_lt

theorem test_spec (sound : s.Sound R) {bit : Bit} (proper : bit.Proper) (low high : σ) :
    s.YieldsRoot R (test bit low high) {bit}
      (R.Decides bit (.constant (Coefficient.ofScalar low))
        (.constant (Coefficient.ofScalar high))) :=
  (makeNode_constants_spec sound proper _ _).intern

theorem multiply_spec (sound : s.Sound R) {f : Root} {d : Diagram κ} (shown : s.RootShows f d)
    (scalar : σ) :
    s.YieldsRoot R (multiply f scalar) d.bits fun result =>
      ∃ factor, (Diagram.constant (Coefficient.ofScalar scalar)).Stored config factor ∧
        R.Combines .product d factor result := by
  obtain ⟨c, _, factor, s₁, run, grows, sound₁, shown₁, put, bits, rfl⟩ :=
    constant_spec sound scalar
  obtain ⟨h, d', stored, s₂, run', grows', sound₂, shown₂, put', bits', combines⟩ :=
    apply_spec sound₁ (grows.rootShows shown) shown₁ .product
  refine ⟨h, d', stored, s₂, ?_, grows.trans grows', sound₂, shown₂, put',
    bits'.trans (Finset.union_subset (Finset.Subset.refl _) (bits.trans (Finset.empty_subset _))),
    factor, put, combines⟩
  rw [multiply, StoreM.bind_of_ok run, run']

/-! ### Branches over diagrams -/

theorem branchEdge_run {bit : Bit} {low high : Diagram κ} (lowShown : s.nodes.Shows low)
    (highShown : s.nodes.Shows high) :
    branchEdge bit low.edge high.edge s =
      if bit.level < low.level ∧ bit.level < high.level then makeNode bit low.edge high.edge s
      else .error (.mustPrecedeChildren bit.id) s := by
  obtain ⟨lowBit, lowFound, lowLevel, -⟩ := bitOf_edge lowShown
  obtain ⟨highBit, highFound, highLevel, -⟩ := bitOf_edge highShown
  rw [branchEdge, StoreM.bind_of_ok (StoreM.inspect_of_ok lowFound), lowLevel]
  by_cases aboveLow : bit.level < low.level
  · rw [if_pos aboveLow]
    dsimp only
    rw [StoreM.bind_of_ok (StoreM.inspect_of_ok highFound), highLevel]
    by_cases aboveHigh : bit.level < high.level
    · rw [if_pos aboveHigh, if_pos ⟨aboveLow, aboveHigh⟩]
    · rw [if_neg aboveHigh, if_neg fun both => aboveHigh both.2]
      rfl
  · rw [if_neg aboveLow, if_neg fun both => aboveLow both.1]
    rfl

theorem branchEdge_spec (sound : s.Sound R) {bit : Bit} {low high : Diagram κ}
    (keepsLow : R.Keeps s.nodes low) (keepsHigh : R.Keeps s.nodes high) (proper : bit.Proper)
    (above : bit.level < low.level ∧ bit.level < high.level) :
    s.Yields R (branchEdge bit low.edge high.edge) (insert bit (low.bits ∪ high.bits))
      (R.Decides bit low high) := by
  obtain ⟨d, s', run, spec⟩ :=
    makeNode_spec sound keepsLow keepsHigh proper above.1 above.2
  refine ⟨d, s', ?_, spec⟩
  rw [branchEdge_run keepsLow.shows keepsHigh.shows, if_pos above, run]

theorem branch_spec (sound : s.Sound R) {bit : Bit} (proper : bit.Proper) {low high : Root}
    {lower upper : Diagram κ} (lowShown : s.RootShows low lower)
    (highShown : s.RootShows high upper) :
    (¬(bit.level < lower.level ∧ bit.level < upper.level) ∧
      branch bit low high s = .error (.mustPrecedeChildren bit.id) s) ∨
    s.YieldsRoot R (branch bit low high) (insert bit (lower.bits ∪ upper.bits))
      (R.Decides bit lower upper) := by
  have run : branch bit low high s = (branchEdge bit lower.edge upper.edge >>= intern) s := by
    rw [branch, StoreM.bind_of_ok (StoreM.inspect_of_ok lowShown.edge_eq),
      StoreM.bind_of_ok (StoreM.inspect_of_ok highShown.edge_eq)]
  by_cases above : bit.level < lower.level ∧ bit.level < upper.level
  · have interned :=
      (branchEdge_spec sound (sound.keeps lowShown) (sound.keeps highShown) proper above).intern
    rw [YieldsRoot, ← run] at interned
    exact .inr interned
  · refine .inl ⟨above, run.trans (StoreM.bind_of_error ?_)⟩
    rw [branchEdge_run lowShown.2 highShown.2, if_neg above]

/-! ### Trees -/

def Refuses (R : Reading σ κ config) (s : Store σ κ) {α : Type} (step : StoreM σ κ α) : Prop :=
  ∃ fault s', step s = .error fault s' ∧ s.Grows s' ∧ s'.Sound R

omit [Scalar σ] [Coefficient σ κ] in
theorem level_lt_of_tree {tree : DecisionTree σ} {bit : Bit} (proper : bit.Proper)
    (propers : ∀ other ∈ tree.bits, other.Proper) (above : ∀ other ∈ tree.bits, bit.id < other.id)
    {d : Diagram κ} (bits : d.bits ⊆ tree.bits) : bit.level < d.level :=
  Diagram.lt_level proper.level_lt fun other mem => by
    rw [proper.level_eq, (propers other (bits mem)).level_eq]
    exact above other (bits mem)

theorem leaf_spec (sound : s.Sound R) (value : σ) :
    s.Yields R (roundEdge (.constant (Coefficient.ofScalar value))) ∅
      (R.Branches (.leaf value)) := by
  refine ⟨.constant (Coefficient.round config.precision (Coefficient.ofScalar value)), s, ?_,
    .refl s, sound, R.keeps_constant _, Finset.empty_subset _, rfl⟩
  rw [roundEdge_run, sound.config_eq]
  rfl

theorem orderedEdge_spec (sound : s.Sound R) {tree : DecisionTree σ}
    (proper : ∀ bit ∈ tree.bits, bit.Proper) :
    s.Yields R (orderedEdge tree) tree.bits (R.Branches tree) ∨
      ¬tree.Ordered ∧ s.Refuses R (orderedEdge tree : StoreM σ κ (Edge κ)) := by
  induction tree generalizing s with
  | leaf value => exact .inl (leaf_spec sound value)
  | branch bit low high ihLow ihHigh =>
    obtain ⟨here, properLow, properHigh⟩ := DecisionTree.forall_mem_bits_branch.mp proper
    rcases ihLow sound properLow with
      ⟨lower, s₁, runLow, grows₁, sound₁, keepsLow, bitsLow, branchesLow⟩ |
      ⟨unordered, fault, s₁, runLow, grows₁, sound₁⟩
    · rcases ihHigh sound₁ properHigh with
        ⟨upper, s₂, runHigh, grows₂, sound₂, keepsHigh, bitsHigh, branchesHigh⟩ |
        ⟨unordered, fault, s₂, runHigh, grows₂, sound₂⟩
      · have keepsLow₂ := keepsLow.mono grows₂.nodes
        by_cases above : bit.level < lower.level ∧ bit.level < upper.level
        · obtain ⟨d, s₃, run, grows₃, sound₃, keeps, bits, decides⟩ :=
            branchEdge_spec sound₂ keepsLow₂ keepsHigh here above
          refine .inl ⟨d, s₃, ?_, grows₁.trans (grows₂.trans grows₃), sound₃, keeps,
            bits.trans (Finset.insert_subset_insert _ (Finset.union_subset_union bitsLow bitsHigh)),
            lower, upper, branchesLow, branchesHigh, decides⟩
          rw [orderedEdge, StoreM.bind_of_ok runLow, StoreM.bind_of_ok runHigh, run]
        · refine .inr ⟨fun ordered => above ⟨?_, ?_⟩, .mustPrecedeChildren bit.id, s₂, ?_,
            grows₁.trans grows₂, sound₂⟩
          · exact level_lt_of_tree here properLow
              (fun other mem => ordered.1 other (Finset.mem_union_left _ mem)) bitsLow
          · exact level_lt_of_tree here properHigh
              (fun other mem => ordered.1 other (Finset.mem_union_right _ mem)) bitsHigh
          · rw [orderedEdge, StoreM.bind_of_ok runLow, StoreM.bind_of_ok runHigh,
              branchEdge_run keepsLow₂.shows keepsHigh.shows, if_neg above]
      · refine .inr ⟨fun ordered => unordered ordered.2.2, fault, s₂, ?_, grows₁.trans grows₂,
          sound₂⟩
        rw [orderedEdge, StoreM.bind_of_ok runLow, StoreM.bind_of_error runHigh]
    · refine .inr ⟨fun ordered => unordered ordered.2.1, fault, s₁, ?_, grows₁, sound₁⟩
      rw [orderedEdge, StoreM.bind_of_error runLow]

theorem ofOrderedTree_spec (sound : s.Sound R) {tree : DecisionTree σ}
    (proper : ∀ bit ∈ tree.bits, bit.Proper) :
    s.YieldsRoot R (ofOrderedTree tree) tree.bits (R.Branches tree) ∨
      ¬tree.Ordered ∧ s.Refuses R (ofOrderedTree tree : StoreM σ κ Root) := by
  rcases orderedEdge_spec sound proper with yields | ⟨unordered, fault, s', run, spec⟩
  · exact .inl yields.intern
  · exact .inr ⟨unordered, fault, s', StoreM.bind_of_error run, spec⟩

theorem unorderedEdge_spec (sound : s.Sound R) {tree : DecisionTree σ}
    (proper : ∀ bit ∈ tree.bits, bit.Proper) :
    s.Yields R (unorderedEdge tree) tree.bits (R.Selects tree) := by
  induction tree generalizing s with
  | leaf value => exact leaf_spec sound value
  | branch bit low high ihLow ihHigh =>
    obtain ⟨here, properLow, properHigh⟩ := DecisionTree.forall_mem_bits_branch.mp proper
    obtain ⟨lower, s₁, runLow, grows₁, sound₁, keepsLow, bitsLow, selectsLow⟩ :=
      ihLow sound properLow
    obtain ⟨upper, s₂, runHigh, grows₂, sound₂, keepsHigh, bitsHigh, selectsHigh⟩ :=
      ihHigh sound₁ properHigh
    -- each indicator is one where its branch is taken and zero elsewhere
    obtain ⟨isLow, s₃, runIsLow, grows₃, sound₃, keepsIsLow, bitsIsLow, decidesLow⟩ :=
      makeNode_constants_spec sound₂ here 1 0
    obtain ⟨isHigh, s₄, runIsHigh, grows₄, sound₄, keepsIsHigh, bitsIsHigh, decidesHigh⟩ :=
      makeNode_constants_spec sound₃ here 0 1
    obtain ⟨lower', s₅, runLow', grows₅, sound₅, keepsLow', bitsLow', combinesLow⟩ :=
      applyEdge_spec .product sound₄ (keepsIsLow.mono grows₄.nodes)
        (keepsLow.mono (grows₂.trans (grows₃.trans grows₄)).nodes)
    obtain ⟨upper', s₆, runHigh', grows₆, sound₆, keepsHigh', bitsHigh', combinesHigh⟩ :=
      applyEdge_spec .product sound₅ (keepsIsHigh.mono grows₅.nodes)
        (keepsHigh.mono (grows₃.trans (grows₄.trans grows₅)).nodes)
    obtain ⟨d, s₇, run, grows₇, sound₇, keeps, bits, combines⟩ :=
      applyEdge_spec .sum sound₆ (keepsLow'.mono grows₆.nodes) keepsHigh'
    refine ⟨d, s₇, ?_, grows₁.trans (grows₂.trans (grows₃.trans (grows₄.trans
        (grows₅.trans (grows₆.trans grows₇))))), sound₇, keeps, ?_, lower, upper, isLow, isHigh,
        lower', upper', selectsLow, selectsHigh, decidesLow, decidesHigh, combinesLow,
        combinesHigh, combines⟩
    · rw [unorderedEdge, StoreM.bind_of_ok runLow, StoreM.bind_of_ok runHigh,
        StoreM.bind_of_ok runIsLow, StoreM.bind_of_ok runIsHigh, StoreM.bind_of_ok runLow',
        StoreM.bind_of_ok runHigh', run]
    · have overTree {indicator part product below : Finset Bit} (isBit : indicator ⊆ {bit})
          (isBelow : part ⊆ below) (inScope : product ⊆ indicator ∪ part)
          (inTree : below ⊆ low.bits ∪ high.bits) :
          product ⊆ insert bit (low.bits ∪ high.bits) := by
        rw [Finset.insert_eq]
        exact inScope.trans (Finset.union_subset_union isBit (isBelow.trans inTree))
      exact bits.trans (Finset.union_subset
        (overTree bitsIsLow bitsLow bitsLow' Finset.subset_union_left)
        (overTree bitsIsHigh bitsHigh bitsHigh' Finset.subset_union_right))

theorem ofUnorderedTree_spec (sound : s.Sound R) {tree : DecisionTree σ}
    (proper : ∀ bit ∈ tree.bits, bit.Proper) :
    s.YieldsRoot R (ofUnorderedTree tree) tree.bits (R.Selects tree) :=
  (unorderedEdge_spec sound proper).intern

end Store

end BayesDiagram
