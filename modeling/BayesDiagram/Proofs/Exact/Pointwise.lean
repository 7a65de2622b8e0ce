import BayesDiagram.Proofs.Diagram.Runs
import BayesDiagram.Proofs.Exact.Reading

/-! Operations on functions. Over exact numbers and with no tolerance every operation of a store
answers the diagram of the function that it is meant to compute, and leaves the functions of all
live roots as they are. -/
namespace BayesDiagram

variable {config : StoreConfig Rat} {noTolerance : config.tolerance = 0} {s s' : Store Rat Rat}
  {d : Diagram Rat} {f g : Root}

theorem Diagram.Stored.eq_round (noTolerance : config.tolerance = 0) {stored : Diagram Rat}
    (put : d.Stored config stored) : stored = d.round config.precision := by
  rcases put with rfl | ⟨shares, near⟩
  · rfl
  · rw [noTolerance, Exact.near_zero_iff] at near
    exact ((SharesNode.reshape d _ _).symm.trans shares).eq_of_edge_eq near.symm

theorem Diagram.Stored.value_eq (noTolerance : config.tolerance = 0) {stored : Diagram Rat}
    (put : d.Stored config stored) (a : Bit → Bool) : stored.value a = d.value a := by
  rw [put.eq_round noTolerance, value_round]

theorem Diagram.Stored.function_eq (noTolerance : config.tolerance = 0) {d stored : Diagram Rat}
    (put : d.Stored config stored) : (fun a => stored.value a) = fun a => d.value a :=
  funext (put.value_eq noTolerance)

namespace Reading

theorem value_of_branches {tree : DecisionTree Rat} (built : (exact noTolerance).Branches tree d)
    (a : Bit → Bool) : d.value a = tree.select a := by
  induction tree generalizing d with
  | leaf value =>
    rw [built]
    exact Diagram.value_constant _
  | branch bit low high ihLow ihHigh =>
    obtain ⟨lower, upper, buildsLow, buildsHigh, decides⟩ := built
    rw [DecisionTree.select, ← ihLow buildsLow, ← ihHigh buildsHigh]
    exact decides a

theorem value_of_selects {tree : DecisionTree Rat} (built : (exact noTolerance).Selects tree d)
    (a : Bit → Bool) : d.value a = tree.select a := by
  induction tree generalizing d with
  | leaf value =>
    rw [built]
    exact Diagram.value_constant _
  | branch bit low high ihLow ihHigh =>
    obtain ⟨lower, upper, isLow, isHigh, lower', upper', selectsLow, selectsHigh, decidesLow,
      decidesHigh, combinesLow, combinesHigh, combines⟩ := built
    have lowTerm : lower'.value a = isLow.value a * lower.value a := combinesLow a
    have highTerm : upper'.value a = isHigh.value a * upper.value a := combinesHigh a
    have total : d.value a = lower'.value a + upper'.value a := combines a
    rw [total, lowTerm, highTerm, decidesLow a, decidesHigh a, DecisionTree.select,
      ← ihLow selectsLow, ← ihHigh selectsHigh]
    simp only [Diagram.value_constant]
    split
    · show 0 * _ + 1 * _ = _
      ring
    · show 1 * _ + 0 * _ = _
      ring

end Reading

namespace Store

/-- A step that adds the diagram of a function, over some of the bits, to a sound store. -/
def Computes (noTolerance : config.tolerance = 0) (s : Store Rat Rat) (step : StoreM Rat Rat Root)
    (scope : Finset Bit) (function : (Bit → Bool) → Rat) : Prop :=
  ∃ f d s', step s = .ok f s' ∧ s.Grows s' ∧ s'.Sound (Reading.exact noTolerance) ∧
    s'.RootShows f d ∧ d.bits ⊆ scope ∧ ∀ a, d.value a = function a

theorem YieldsRoot.computes {step : StoreM Rat Rat Root} {scope : Finset Bit}
    {meaning : Diagram Rat → Prop} {function : (Bit → Bool) → Rat}
    (yields : s.YieldsRoot (Reading.exact noTolerance) step scope meaning)
    (means : ∀ d, d.bits ⊆ scope → meaning d → ∀ a, d.value a = function a) :
    s.Computes noTolerance step scope function := by
  obtain ⟨f, d, stored, s', run, grows, sound, shown, put, bits, meant⟩ := yields
  refine ⟨f, stored, s', run, grows, sound, shown, bits, fun a => ?_⟩
  rw [put.value_eq noTolerance]
  exact means d (put.bits_eq ▸ bits) meant a

theorem RootShows.evaluate_covered (shown : s.RootShows f d) (ordered : d.Ordered)
    {assignment : Assignment} {a : Bit → Bool}
    (covers : ∀ bit ∈ d.bits, assignment bit = some (a bit)) :
    s.evaluate f assignment = .ok (some (d.value a)) := by
  rw [shown.evaluate_eq ordered, Diagram.evaluate_covered covers]
  congr 2
  show 0 + 1 * d.value a = d.value a
  ring

theorem value_of_fixes {bit : Bit} {value : Bool} {result : Diagram Rat}
    (bits : result.bits ⊆ d.bits.erase bit)
    (fixes : (Reading.exact noTolerance).Fixes bit value d result) (a : Bit → Bool) :
    result.value a = d.value (Function.update a bit value) := by
  rw [← fixes (Function.update a bit value) (Function.update_self bit value a)]
  refine Diagram.value_congr fun other mem => ?_
  rw [Function.update_of_ne (Finset.ne_of_mem_erase (bits mem))]

variable (sound : s.Sound (Reading.exact noTolerance))

include sound

theorem apply_computes {left right : Diagram Rat} (leftShown : s.RootShows f left)
    (rightShown : s.RootShows g right) (op : Operator) :
    s.Computes noTolerance (apply f g op) (left.bits ∪ right.bits) fun a =>
      op.compute (left.value a) (right.value a) :=
  (apply_spec sound leftShown rightShown op).computes fun _ _ combines => combines

theorem restrict_computes (shown : s.RootShows f d) (bit : Bit) (value : Bool) :
    s.Computes noTolerance (restrict f bit value) (d.bits.erase bit) fun a =>
      d.value (Function.update a bit value) :=
  (restrict_spec sound shown bit value).computes fun _ bits fixes =>
    value_of_fixes bits fixes

theorem marginalize_computes (shown : s.RootShows f d) (bit : Bit) (op : Operator) :
    s.Computes noTolerance (marginalize f bit op) (d.bits.erase bit) fun a =>
      op.compute (d.value (Function.update a bit false)) (d.value (Function.update a bit true)) :=
  (marginalize_spec sound shown bit op).computes
    fun _ _ ⟨_, _, bitsLow, fixesLow, bitsHigh, fixesHigh, combines⟩ a => by
      rw [← value_of_fixes bitsLow fixesLow, ← value_of_fixes bitsHigh fixesHigh]
      exact combines a

theorem ofOrderedTree_computes {tree : DecisionTree Rat} (proper : ∀ bit ∈ tree.bits, bit.Proper)
    (ordered : tree.Ordered) :
    s.Computes noTolerance (ofOrderedTree tree) tree.bits tree.select := by
  rcases ofOrderedTree_spec sound proper with yields | ⟨unordered, -⟩
  · exact yields.computes fun _ _ built => Reading.value_of_branches built
  · exact absurd ordered unordered

theorem ofUnorderedTree_computes {tree : DecisionTree Rat}
    (proper : ∀ bit ∈ tree.bits, bit.Proper) :
    s.Computes noTolerance (ofUnorderedTree tree) tree.bits tree.select :=
  (ofUnorderedTree_spec sound proper).computes fun _ _ built => Reading.value_of_selects built

omit sound

/-- In every store on a run, the combination of two live diagrams has their values combined at
every assignment, and all live diagrams keep their values. -/
theorem evaluate_apply (noTolerance : config.tolerance = 0) (reachable : Reachable config s)
    (leftLive : s.roots.isOccupied f.index = true) (rightLive : s.roots.isOccupied g.index = true)
    (op : Operator) :
    ∃ h s', apply f g op s = .ok h s' ∧
      (∀ a : Bit → Bool, ∃ x y : Rat,
        s.evaluate f (fun bit => some (a bit)) = .ok (some x) ∧
        s.evaluate g (fun bit => some (a bit)) = .ok (some y) ∧
        s'.evaluate h (fun bit => some (a bit)) = .ok (some (op.compute x y))) ∧
      ∀ e : Root, s.roots.isOccupied e.index = true → s'.roots.isOccupied e.index = true ∧
        ∀ assignment, s'.evaluate e assignment = s.evaluate e assignment := by
  have sound : s.Sound (Reading.exact noTolerance) := reachable.sound
  obtain ⟨left, leftShown, leftKeeps⟩ := sound.rootShows leftLive
  obtain ⟨right, rightShown, rightKeeps⟩ := sound.rootShows rightLive
  obtain ⟨h, d, s', run, grows, sound', shown, -, values⟩ :=
    apply_computes sound leftShown rightShown op
  refine ⟨h, s', run, fun a => ⟨left.value a, right.value a, ?_, ?_, ?_⟩, fun e live => ?_⟩
  · exact leftShown.evaluate_covered leftKeeps.ordered fun _ _ => rfl
  · exact rightShown.evaluate_covered rightKeeps.ordered fun _ _ => rfl
  · have result : d.value a = op.compute (left.value a) (right.value a) := values a
    rw [← result]
    exact shown.evaluate_covered (sound'.keeps shown).ordered fun _ _ => rfl
  · obtain ⟨other, otherShown, otherKeeps⟩ := sound.rootShows live
    have stays := grows.rootShows otherShown
    refine ⟨?_, fun assignment => ?_⟩
    · rw [UniqueTable.isOccupied, stays.1]
      rfl
    · rw [stays.evaluate_eq otherKeeps.ordered, otherShown.evaluate_eq otherKeeps.ordered]

theorem evaluate_quotient :
    exactTests.roots.isOccupied 1 = true ∧ exactTests.roots.isOccupied 2 = true ∧
    ∃ h s', apply ⟨1⟩ ⟨2⟩ .divide exactTests = .ok h s' ∧
      (∀ a : Bit → Bool, ∃ x y : Rat,
        exactTests.evaluate ⟨1⟩ (fun bit => some (a bit)) = .ok (some x) ∧
        exactTests.evaluate ⟨2⟩ (fun bit => some (a bit)) = .ok (some y) ∧
        s'.evaluate h (fun bit => some (a bit)) = .ok (some (Operator.divide.compute x y))) ∧
      ∀ e : Root, exactTests.roots.isOccupied e.index = true →
        s'.roots.isOccupied e.index = true ∧
        ∀ assignment, s'.evaluate e assignment = exactTests.evaluate e assignment :=
  ⟨by decide +kernel, by decide +kernel,
    evaluate_apply rfl reachable_exactTests (by decide +kernel) (by decide +kernel) .divide⟩

end Store

end BayesDiagram
