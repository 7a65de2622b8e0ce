import Mathlib
import BayesDiagram.Proofs.Exact.Sessions

/-! Rare evidence. With no tolerance, evidence of positive probability has a positive likelihood and
a posterior that sums to one. With the standard tolerance a likelihood below it may be taken for a
zero that an earlier question left in the store, and the evidence for impossible. -/
namespace BayesDiagram

/-! ### A rare cause -/

namespace ConditionalTable

def rare : ConditionalTable Rat where
  head := "A"
  parents := []
  entries := .ofList [([0], (99999999999 / 100000000000 : Rat)), ([1], 1 / 100000000000)]
  tag := none

def never : ConditionalTable Rat where
  head := "B"
  parents := []
  entries := .ofList [([0], (1 : Rat)), ([1], 0)]
  tag := none

end ConditionalTable

namespace Network

def rareCause : Network Rat :=
  let declared : Network Rat :=
    { declared := [⟨"A", ["common", "rare"]⟩, ⟨"B", ["always", "never"]⟩] }
  (declared.attach .rare).attach .never

theorem built_rareCause : rareCause.Built := by
  have rare : Built ({ declared := [⟨"A", ["common", "rare"]⟩] } : Network Rat) :=
    .declare (v := ⟨"A", ["common", "rare"]⟩) .empty rfl
  exact ((rare.declare (v := ⟨"B", ["always", "never"]⟩) rfl).attach .rare).attach .never

end Network

namespace Model

def rareEvidence : Evidence :=
  (∅ : Evidence).insert "A" 1

/-- Asks for what never occurs and then for the rare cause. The answer is the mass of the rare cause
with the likelihood and the posterior that are reported for it. -/
def askRare (config : StoreConfig Rat) : Option (Rat × Rat × Rat) :=
  let loaded : Except (Failure Rat) (Model Rat × Workspace Rat Rat) :=
    load .rareCause ⟨config, .scalar⟩ (DependencyGraph.completedOrder [])
  match loaded with
  | .error _ => none
  | .ok (m, start) =>
    match m.query [] [("B", "never")] true start with
    | .ok (.posterior _) w =>
      match m.query [] [("A", "rare")] true w, (m.graph.ancestors ["A"] : Except (Error Rat) _) with
      | .ok (.posterior p) w', .ok relevant =>
        match m.evaluate w'.store p [] with
        | .ok value => some (rareEvidence.mass m.network.arityOf ∅ relevant (m.factor start.store),
            p.likelihood, value)
        | .error _ => none
      | _, _ => none
    | _ => none

theorem askRare_eq_some {config : StoreConfig Rat} {mass likelihood value : Rat}
    (answer : askRare config = some (mass, likelihood, value)) :
    ∃ (m : Model Rat) (start w w' : Workspace Rat Rat) (p q : Posterior Rat) (relevant : NameSet),
      load .rareCause ⟨config, .scalar⟩ (DependencyGraph.completedOrder []) = .ok (m, start) ∧
      m.query [] [("B", "never")] true start = .ok (.posterior p) w ∧
      m.query [] [("A", "rare")] true w = .ok (.posterior q) w' ∧
      (∀ name, name ∈ relevant ↔ m.graph.Above ["A"] name) ∧
      rareEvidence.mass m.network.arityOf ∅ relevant (m.factor start.store) = mass ∧
      q.likelihood = likelihood ∧ m.evaluate w'.store q [] = .ok value := by
  rw [askRare] at answer
  split at answer
  · cases answer
  next m start loads =>
  split at answer
  next p w first =>
    split at answer
    · next q w' relevant second ancestors =>
      split at answer
      · next v read =>
        cases answer
        obtain ⟨-, graphed, -⟩ := load_eq_ok loads
        have closed := (graphOf_spec Network.built_rareCause graphed).2.2.1
        obtain ⟨set, found, above⟩ := DependencyGraph.ancestors_spec Rat closed
          fun seed mem => DependencyGraph.mem_names_of_ancestors ancestors mem
        obtain rfl : set = relevant := Except.ok.inj (found.symm.trans ancestors)
        exact ⟨m, start, w, w', p, q, set, loads, first, second, above, rfl, rfl, read⟩
      · cases answer
    · cases answer
  · cases answer

variable {n : Network Rat} {modelConfig : ModelConfig Rat}
  {ordering : DependencyGraph → List String} {m : Model Rat} {held : List (Posterior Rat)}
  {start w : Workspace Rat Rat}

/-- With no tolerance a loaded model takes no evidence of positive mass for impossible, whatever it
was asked before. -/
theorem posterior_of_positive_mass (noTolerance : modelConfig.store.tolerance = 0)
    (scalar : modelConfig.normalization = .scalar) (built : n.Built)
    (loads : load n modelConfig ordering = .ok (m, start)) (session : m.Session start held w)
    {query : NameSet} {evidence : Evidence}
    (queried : ∀ name ∈ query, name ∈ m.graph.names ∧ name ∉ evidence)
    (observed : ∀ name value, evidence[name]? = some value →
      name ∈ m.graph.names ∧ value < n.arityOf name) {relevant : NameSet}
    (isRelevant : ∀ name, name ∈ relevant ↔ m.graph.Above (query.toList ++ evidence.keys) name)
    (positive : 0 < evidence.mass n.arityOf query relevant (m.factor start.store)) :
    ∃ p w', m.run query evidence true w = .ok (.posterior p) w' ∧
      (∀ names given, Std.ExtTreeSet.ofList names = query → n.resolve given = .ok evidence →
        m.query names given true w = .ok (.posterior p) w') ∧
      0 < p.likelihood ∧
      ∃ share : Choice → Rat, (∀ v, m.Gives w'.store p v (share v)) ∧
        sumOver n.arityOf query.toList share (fun _ => 0) = 1 := by
  obtain ⟨diagramOf, base, loaded⟩ := loaded_of_load (.pointwise noTolerance) rfl built loads
  obtain ⟨-, -, -, -, rfl, -, normalization, -⟩ := load_eq_ok loads
  obtain ⟨relevant', p, w', isRelevant', run, asked, mass, -, shares⟩ :=
    loaded.answers (normalization.trans scalar) session (loaded.admits queried observed)
  obtain rfl : relevant' = relevant := by
    ext name
    rw [isRelevant, isRelevant']
  have likely : 0 < p.likelihood := mass ▸ positive
  refine ⟨p, w', run, fun names given same resolved => ?_, likely,
    fun v => evidence.weight m.network.arityOf query relevant' (m.factor start.store) v /
      p.likelihood, shares likely.ne', ?_⟩
  · rw [query_eq, resolved, same]
    exact run
  · rw [sumOver_div, ← Evidence.mass, ← mass, div_self likely.ne']

theorem posterior_of_rareCause :
    ∃ (m : Model Rat) (start w w' : Workspace Rat Rat) (p q : Posterior Rat),
      load .rareCause ⟨.exact, .scalar⟩ (DependencyGraph.completedOrder []) = .ok (m, start) ∧
      m.query [] [("B", "never")] true start = .ok (.posterior p) w ∧
      m.query [] [("A", "rare")] true w = .ok (.posterior q) w' ∧ 0 < q.likelihood := by
  have asked : askRare .exact = some (1 / 100000000000, 1 / 100000000000, 1) := by cbv
  obtain ⟨m, start, w, -, p, -, relevant, loads, first, -, isRelevant, mass, -⟩ :=
    askRare_eq_some asked
  obtain ⟨-, graphed, -, -, network, -⟩ := load_eq_ok loads
  have graph : m.graph = ⟨["A", "B"], []⟩ := (Except.ok.inj graphed).symm
  have observed (name : String) (value : Nat) (seen : rareEvidence[name]? = some value) :
      name ∈ m.graph.names ∧ value < Network.rareCause.arityOf name := by
    rw [rareEvidence, Std.ExtTreeMap.getElem?_insert] at seen
    split at seen
    · next same =>
      cases seen
      obtain rfl := Std.LawfulEqOrd.eq_of_compare same
      exact ⟨graph ▸ .head _, by decide +kernel⟩
    · cases seen
  have positive : 0 < rareEvidence.mass Network.rareCause.arityOf ∅ relevant
      (m.factor start.store) := by
    rw [← network, mass]
    decide +kernel
  have session : m.Session start [p] w :=
    .answered .start (.labels [] [("B", "never")] true) first
  obtain ⟨q, w', -, run, likely, -⟩ := posterior_of_positive_mass rfl rfl Network.built_rareCause
    loads session (fun _ mem => absurd mem Std.ExtTreeSet.not_mem_empty) observed isRelevant positive
  exact ⟨m, start, w, w', p, q, loads, first, run [] [("A", "rare")] rfl rfl, likely⟩

/-- With the standard tolerance the rare cause is reported as impossible once a likelihood of zero
is in the store. -/
theorem rareCause_impossible :
    ∃ (m : Model Rat) (start w w' : Workspace Rat Rat) (p q : Posterior Rat) (relevant : NameSet),
      load .rareCause ⟨.standard, .scalar⟩ (DependencyGraph.completedOrder []) = .ok (m, start) ∧
      m.query [] [("B", "never")] true start = .ok (.posterior p) w ∧
      m.query [] [("A", "rare")] true w = .ok (.posterior q) w' ∧
      (∀ name, name ∈ relevant ↔ m.graph.Above ["A"] name) ∧
      rareEvidence.mass m.network.arityOf ∅ relevant (m.factor start.store) = 1 / 100000000000 ∧
      q.likelihood = 0 ∧ m.evaluate w'.store q [] = .ok 0 :=
  askRare_eq_some (by cbv)

end Model

end BayesDiagram
