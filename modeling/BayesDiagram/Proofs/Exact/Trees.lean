import BayesDiagram.Proofs.Exact.Cofactors

/-! Decision trees over exact numbers. A tree may test its bits in any order and a bit several times
on one path: the sum of its products with indicators is the function that its branches select. The
tests that an ordered construction puts down are the same function, so by canonicity the two
constructions answer one root. -/
namespace BayesDiagram.Store

variable {config : StoreConfig Rat} {noTolerance : config.tolerance = 0} {s s' : Store Rat Rat}
  {f g : Root}

theorem Computes.shown_of_ok {step : StoreM Rat Rat Root} {scope : Finset Bit}
    {function : (Bit → Bool) → Rat} (computes : s.Computes noTolerance step scope function)
    (run : step s = .ok f s') :
    s.Grows s' ∧ s'.Sound (Reading.exact noTolerance) ∧
      ∃ d, s'.RootShows f d ∧ (fun a => d.value a) = function := by
  obtain ⟨f', d, s'', run', grows, sound, shown, -, values⟩ := computes
  rw [run] at run'
  cases run'
  exact ⟨grows, sound, d, shown, funext values⟩

theorem Computes.eq_of_shown {step : StoreM Rat Rat Root} {scope : Finset Bit} {d : Diagram Rat}
    (computes : s.Computes noTolerance step scope fun a => d.value a) (shown : s.RootShows f d)
    (reachable : Reachable config s') (run : step s = .ok g s') : g = f := by
  obtain ⟨grows, sound, d', shown', values⟩ := computes.shown_of_ok run
  exact shown'.root_eq (grows.rootShows shown) sound (distinct_of_reachable noTolerance reachable)
    (congrFun values)

theorem Reachable.answered (reachable : Reachable config s) (request : Request Rat)
    (allowed : request.Allowed s) {step : StoreM Rat Rat Root}
    (performs : request.perform = some <$> step) (run : step s = .ok f s') :
    Reachable config s' := by
  have next : Reachable config (request.after s) := .requested reachable allowed
  simpa only [Request.after, performs, Functor.map, EStateM.map, run] using next

variable {tree : DecisionTree Rat}

/-- An ordered construction that answers has computed the function of the tree, also when the tree
is out of order and only what collapsed has hidden it. -/
theorem ofOrderedTree_computes_of_ok (sound : s.Sound (Reading.exact noTolerance))
    (proper : ∀ bit ∈ tree.bits, bit.Proper) (run : ofOrderedTree tree s = .ok f s') :
    s.Computes noTolerance (ofOrderedTree tree) tree.bits tree.select := by
  rcases ofOrderedTree_spec sound proper with yields | ⟨-, fault, s'', refused, -⟩
  · exact yields.computes fun _ _ built => Reading.value_of_branches built
  · rw [run] at refused
    cases refused

/-- In every store on a run the unordered construction answers, with the function that the tree's
own branches select; the ordered one has that function whenever it answers, which it does for every
ordered tree; and whichever runs second answers the root of the first. -/
theorem trees_denote (noTolerance : config.tolerance = 0) (reachable : Reachable config s)
    (proper : ∀ bit ∈ tree.bits, bit.Proper) :
    (∃ f s', ofUnorderedTree tree s = .ok f s' ∧ s'.Denotes f tree.select ∧
      ∀ g s'', ofOrderedTree tree s' = .ok g s'' → g = f) ∧
    (∀ f s', ofOrderedTree tree s = .ok f s' → s'.Denotes f tree.select ∧
      ∃ s'', ofUnorderedTree tree s' = .ok f s'') ∧
    (tree.Ordered → ∃ f s', ofOrderedTree tree s = .ok f s') := by
  have sound : s.Sound (Reading.exact noTolerance) := reachable.sound
  refine ⟨?_, fun f s' run => ?_, fun ordered => ?_⟩
  · obtain ⟨f, s', run, denotes⟩ := (ofUnorderedTree_computes sound proper).answers
    obtain ⟨-, sound', d, shown, values⟩ :=
      (ofUnorderedTree_computes sound proper).shown_of_ok run
    refine ⟨f, s', run, denotes, fun g s'' run' => ?_⟩
    have second := ofOrderedTree_computes_of_ok sound' proper run'
    rw [← values] at second
    have reachable' := (reachable.answered (.ofUnorderedTree tree) proper rfl run).answered
      (.ofOrderedTree tree) proper rfl run'
    exact second.eq_of_shown shown reachable' run'
  · obtain ⟨-, sound', d, shown, values⟩ :=
      (ofOrderedTree_computes_of_ok sound proper run).shown_of_ok run
    have second := ofUnorderedTree_computes sound' proper
    rw [← values] at second ⊢
    obtain ⟨g, s'', run', -⟩ := second.answers
    have reachable' := (reachable.answered (.ofOrderedTree tree) proper rfl run).answered
      (.ofUnorderedTree tree) proper rfl run'
    have same : g = f := second.eq_of_shown shown reachable' run'
    exact ⟨shown.denotes sound', s'', same ▸ run'⟩
  · obtain ⟨f, s', run, -⟩ := (ofOrderedTree_computes sound proper ordered).answers
    exact ⟨f, s', run⟩

def orderedTree : DecisionTree Rat :=
  .branch ⟨1⟩ (.branch ⟨2⟩ (.leaf 3) (.leaf 5)) (.branch ⟨2⟩ (.leaf (-1)) (.leaf 4))

theorem trees_denote_orderedTree :
    (∀ bit ∈ orderedTree.bits, bit.Proper) ∧
    (∃ f s', ofUnorderedTree orderedTree exactTests = .ok f s' ∧ s'.Denotes f orderedTree.select ∧
      ∀ g s'', ofOrderedTree orderedTree s' = .ok g s'' → g = f) ∧
    (∀ f s', ofOrderedTree orderedTree exactTests = .ok f s' →
      s'.Denotes f orderedTree.select ∧ ∃ s'', ofUnorderedTree orderedTree s' = .ok f s'') ∧
    ∃ f s', ofOrderedTree orderedTree exactTests = .ok f s' := by
  have proper : ∀ bit ∈ orderedTree.bits, bit.Proper := by
    have first : (⟨1⟩ : Bit).Proper := ⟨by decide, by decide⟩
    have second : (⟨2⟩ : Bit).Proper := ⟨by decide, by decide⟩
    simp [orderedTree, DecisionTree.bits, first, second]
  have ordered : orderedTree.Ordered := by
    simp [orderedTree, DecisionTree.Ordered, DecisionTree.bits]
  obtain ⟨unordered, whenever, answers⟩ := trees_denote rfl reachable_exactTests proper
  exact ⟨proper, unordered, whenever, answers ordered⟩

/-- An ordered construction accepts a tree that tests a bit again below a later one, if the inner
tests collapse. -/
example :
    let tree : DecisionTree Rat :=
      .branch ⟨2⟩ (.branch ⟨1⟩ (.leaf 3) (.branch ⟨2⟩ (.leaf 3) (.leaf 3))) (.leaf 4)
    (match ofOrderedTree tree exactTests with
      | .ok _ _ => true
      | .error _ _ => false) = true := by
  decide +kernel

end BayesDiagram.Store
