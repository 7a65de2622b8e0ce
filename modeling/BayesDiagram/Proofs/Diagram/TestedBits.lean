import BayesDiagram.Proofs.Diagram.Counting
import BayesDiagram.Proofs.Diagram.Runs
import Mathlib

/-! The bits that results test. Whatever the arithmetic returns, a combination tests only bits of its
operands, a restriction and an elimination have lost their bit, and the diagram of a tree tests only
bits of the tree. The store invariant carries this through the memoized results and through the
nodes and roots that are found in place of near ones, since all of them lie over the bits of what
they stand for. -/
namespace BayesDiagram

theorem Bit.proper_of_level_lt {bit : Bit} (above : bit.level < maxId) : bit.Proper := by
  have nonzero : bit.id ≠ 0 := fun zero => by
    rw [level, if_pos zero] at above
    exact Nat.lt_irrefl _ above
  exact ⟨nonzero, level_of_ne_zero nonzero ▸ above⟩

namespace Store

variable {σ κ : Type} [Scalar σ] [Coefficient σ κ] {config : StoreConfig σ} {R : Reading σ κ config}
  {s s' : Store σ κ} {tree : DecisionTree σ}

def AnswersOver (s : Store σ κ) (step : StoreM σ κ Root) (kind : Bit → Prop) : Prop :=
  ∃ h s' used, step s = .ok h s' ∧ s'.bitsUsed h = .ok used ∧ ∀ bit ∈ used, kind bit

theorem YieldsRoot.answersOver {step : StoreM σ κ Root} {scope : Finset Bit}
    {meaning : Diagram κ → Prop} (yields : s.YieldsRoot R step scope meaning) {kind : Bit → Prop}
    (within : ∀ bit ∈ scope, kind bit) : s.AnswersOver step kind := by
  obtain ⟨h, d, stored, s', run, -, -, shown, -, bits, -⟩ := yields
  obtain ⟨used, listed, mem⟩ := shown.mem_bitsUsed
  exact ⟨h, s', used, run, listed, fun bit tested => within bit (bits ((mem bit).mp tested))⟩

/-! ### Trees -/

theorem proper_of_makeNode {bit : Bit} {low high : κ} {e : Edge κ}
    (run : makeNode bit (.constant low) (.constant high) s = .ok e s') : bit.Proper := by
  refine Bit.proper_of_level_lt (Decidable.byContradiction fun improper => ?_)
  have top : s.bitOf (.constant low) = .ok .terminal := rfl
  rw [makeNode, StoreM.bind_of_ok (StoreM.inspect_of_ok top), Bit.level_terminal,
    if_neg improper] at run
  cases run

theorem orderedEdge_of_ok (sound : s.Sound R) (proper : ∀ bit ∈ tree.bits, bit.Proper) {e : Edge κ}
    (run : orderedEdge tree s = .ok e s') :
    ∃ d : Diagram κ, d.edge = e ∧ s.Grows s' ∧ s'.Sound R ∧ R.Keeps s'.nodes d := by
  rcases orderedEdge_spec sound proper with
    ⟨d, _, run', grows, sound', keeps, -⟩ | ⟨-, fault, _, run', -⟩
  · obtain ⟨rfl, rfl⟩ := EStateM.Result.ok.inj (run.symm.trans run')
    exact ⟨d, rfl, grows, sound', keeps⟩
  · cases run.symm.trans run'

/-- A tree in order is built over proper bits only, since every branch compares its level. -/
theorem proper_of_orderedEdge (sound : s.Sound R) {e : Edge κ}
    (run : orderedEdge tree s = .ok e s') : ∀ bit ∈ tree.bits, bit.Proper := by
  induction tree generalizing s e s' with
  | leaf value => exact fun bit mem => absurd mem (Finset.notMem_empty bit)
  | branch bit low high ihLow ihHigh =>
    obtain ⟨lower, s₁, runLow, run⟩ := StoreM.bind_eq_ok.mp run
    obtain ⟨upper, s₂, runHigh, run⟩ := StoreM.bind_eq_ok.mp run
    have properLow := ihLow sound runLow
    obtain ⟨d, rfl, -, sound₁, keepsLow⟩ := orderedEdge_of_ok sound properLow runLow
    have properHigh := ihHigh sound₁ runHigh
    obtain ⟨d', rfl, grows, -, keepsHigh⟩ := orderedEdge_of_ok sound₁ properHigh runHigh
    have keepsLow := keepsLow.mono grows.nodes
    rw [branchEdge_run keepsLow.shows keepsHigh.shows] at run
    split at run
    · next above =>
      have here := Bit.proper_of_level_lt (above.1.trans_le keepsLow.ordered.level_le_maxId)
      exact DecisionTree.forall_mem_bits_branch.mpr ⟨here, properLow, properHigh⟩
    · cases run

theorem proper_of_unorderedEdge (sound : s.Sound R) {e : Edge κ}
    (run : unorderedEdge tree s = .ok e s') : ∀ bit ∈ tree.bits, bit.Proper := by
  induction tree generalizing s e s' with
  | leaf value => exact fun bit mem => absurd mem (Finset.notMem_empty bit)
  | branch bit low high ihLow ihHigh =>
    obtain ⟨lower, s₁, runLow, run⟩ := StoreM.bind_eq_ok.mp run
    obtain ⟨upper, s₂, runHigh, run⟩ := StoreM.bind_eq_ok.mp run
    obtain ⟨isLow, s₃, runIsLow, -⟩ := StoreM.bind_eq_ok.mp run
    have properLow := ihLow sound runLow
    obtain ⟨d, _, runLow', -, sound₁, -⟩ := unorderedEdge_spec sound properLow
    obtain ⟨-, rfl⟩ := EStateM.Result.ok.inj (runLow.symm.trans runLow')
    have properHigh := ihHigh sound₁ runHigh
    exact DecisionTree.forall_mem_bits_branch.mpr
      ⟨proper_of_makeNode runIsLow, properLow, properHigh⟩

theorem ofOrderedTree_answersOver (sound : s.Sound R) {h : Root}
    (run : ofOrderedTree tree s = .ok h s') :
    s.AnswersOver (ofOrderedTree tree : StoreM σ κ Root) (· ∈ tree.bits) := by
  obtain ⟨e, s₁, built, -⟩ := StoreM.bind_eq_ok.mp run
  rcases ofOrderedTree_spec sound (proper_of_orderedEdge sound built) with
    yields | ⟨-, fault, s₂, refused, -⟩
  · exact yields.answersOver fun _ mem => mem
  · cases run.symm.trans refused

theorem ofUnorderedTree_answersOver (sound : s.Sound R) {h : Root}
    (run : ofUnorderedTree tree s = .ok h s') :
    s.AnswersOver (ofUnorderedTree tree : StoreM σ κ Root) (· ∈ tree.bits) := by
  obtain ⟨e, s₁, built, -⟩ := StoreM.bind_eq_ok.mp run
  exact (ofUnorderedTree_spec sound (proper_of_unorderedEdge sound built)).answersOver
    fun _ mem => mem

/-! ### Operations -/

/-- No operation answers a diagram that tests a bit which its operands do not, and a bit that was
fixed or eliminated is gone. -/
structure IntroducesNoBits (s : Store σ κ) : Prop where
  apply {f g : Root} (left : s.roots.isOccupied f.index = true)
    (right : s.roots.isOccupied g.index = true) (op : Operator) :
    ∃ used used', s.bitsUsed f = .ok used ∧ s.bitsUsed g = .ok used' ∧
      s.AnswersOver (apply f g op) fun bit => bit ∈ used ∨ bit ∈ used'
  restrict {f : Root} (live : s.roots.isOccupied f.index = true) (bit : Bit) (value : Bool) :
    ∃ used, s.bitsUsed f = .ok used ∧
      s.AnswersOver (restrict f bit value) fun other => other ∈ used ∧ other ≠ bit
  marginalize {f : Root} (live : s.roots.isOccupied f.index = true) (bit : Bit) (op : Operator) :
    ∃ used, s.bitsUsed f = .ok used ∧
      s.AnswersOver (marginalize f bit op) fun other => other ∈ used ∧ other ≠ bit
  /-- The tree may have any bits, in any order, as long as the builder ends with a root. -/
  ofOrderedTree {tree : DecisionTree σ} {h : Root} {s' : Store σ κ}
    (run : ofOrderedTree tree s = .ok h s') :
    s.AnswersOver (ofOrderedTree tree : StoreM σ κ Root) (· ∈ tree.bits)
  ofUnorderedTree {tree : DecisionTree σ} {h : Root} {s' : Store σ κ}
    (run : ofUnorderedTree tree s = .ok h s') :
    s.AnswersOver (ofUnorderedTree tree : StoreM σ κ Root) (· ∈ tree.bits)
  built {tree : DecisionTree σ} (proper : ∀ bit ∈ tree.bits, bit.Proper) :
    (tree.Ordered → s.AnswersOver (Store.ofOrderedTree tree : StoreM σ κ Root) (· ∈ tree.bits)) ∧
      s.AnswersOver (Store.ofUnorderedTree tree : StoreM σ κ Root) (· ∈ tree.bits)

theorem Sound.introducesNoBits (sound : s.Sound R) : s.IntroducesNoBits where
  apply left right op := by
    obtain ⟨d, shown, -⟩ := sound.rootShows left
    obtain ⟨d', shown', -⟩ := sound.rootShows right
    obtain ⟨used, run, mem⟩ := shown.mem_bitsUsed
    obtain ⟨used', run', mem'⟩ := shown'.mem_bitsUsed
    refine ⟨used, used', run, run', (apply_spec sound shown shown' op).answersOver ?_⟩
    intro bit tested
    rw [mem, mem']
    exact Finset.mem_union.mp tested
  restrict live bit value := by
    obtain ⟨d, shown, -⟩ := sound.rootShows live
    obtain ⟨used, run, mem⟩ := shown.mem_bitsUsed
    refine ⟨used, run, (restrict_spec sound shown bit value).answersOver fun other tested => ?_⟩
    rw [mem]
    exact (Finset.mem_erase.mp tested).symm
  marginalize live bit op := by
    obtain ⟨d, shown, -⟩ := sound.rootShows live
    obtain ⟨used, run, mem⟩ := shown.mem_bitsUsed
    refine ⟨used, run, (marginalize_spec sound shown bit op).answersOver fun other tested => ?_⟩
    rw [mem]
    exact (Finset.mem_erase.mp tested).symm
  ofOrderedTree run := ofOrderedTree_answersOver sound run
  ofUnorderedTree run := ofUnorderedTree_answersOver sound run
  built proper := by
    refine ⟨fun ordered => ?_, (ofUnorderedTree_spec sound proper).answersOver fun _ mem => mem⟩
    rcases ofOrderedTree_spec sound proper with yields | ⟨unordered, -⟩
    · exact yields.answersOver fun _ mem => mem
    · exact absurd ordered unordered

/-- On every run, whatever the arithmetic returns and at any tolerance, no operation introduces a
bit. -/
theorem introducesNoBits_of_reachable (reachable : Reachable config s) : s.IntroducesNoBits :=
  (reachable.sound (R := .plain config)).introducesNoBits

theorem introducesNoBits_exactTests :
    Reachable .exact exactTests ∧ exactTests.roots.isOccupied 1 = true ∧
      exactTests.roots.isOccupied 2 = true ∧ exactTests.IntroducesNoBits ∧
      exactTests.bitsUsed ⟨1⟩ = .ok [⟨1⟩] ∧ exactTests.bitsUsed ⟨2⟩ = .ok [⟨2⟩] ∧
      exactTests.AnswersOver (Store.apply ⟨1⟩ ⟨2⟩ .product) (· ∈ [⟨1⟩, ⟨2⟩]) := by
  have spares := introducesNoBits_of_reachable reachable_exactTests
  have left : exactTests.roots.isOccupied 1 = true := by decide +kernel
  have right : exactTests.roots.isOccupied 2 = true := by decide +kernel
  have tested : exactTests.bitsUsed ⟨1⟩ = .ok [⟨1⟩] := by cbv
  have tested' : exactTests.bitsUsed ⟨2⟩ = .ok [⟨2⟩] := by cbv
  refine ⟨reachable_exactTests, left, right, spares, tested, tested', ?_⟩
  obtain ⟨used, used', run, run', h, s', bits, product, listed, within⟩ :=
    spares.apply (f := ⟨1⟩) (g := ⟨2⟩) left right .product
  obtain rfl := Except.ok.inj (tested.symm.trans run)
  obtain rfl := Except.ok.inj (tested'.symm.trans run')
  exact ⟨h, s', bits, product, listed, fun bit mem => List.mem_append.mpr (within bit mem)⟩

end Store

end BayesDiagram
