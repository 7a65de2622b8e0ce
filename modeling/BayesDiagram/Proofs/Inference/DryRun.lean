import BayesDiagram.Proofs.Inference.ScopeSafety

/-! The dry run. It goes through the order on scopes alone, with the same steps as the sweep on
factors: wherever both stop, the scopes that it keeps are those of the live factors, in the same
order, and the sizes of the largest factor so far agree. -/
namespace BayesDiagram

variable {σ κ : Type} [Scalar σ] [Coefficient σ κ] {config : StoreConfig σ}
  {R : Reading σ κ config}

open Store Factor InferenceM

namespace Engine

variable {e : Engine} {query relevant : NameSet} {evidence : Evidence} {operations : BitOperations}
  {diagramOf : String → Diagram κ} {base : Root → Nat} {s s' : Store σ κ} {w : Workspace σ κ}
  {factors factors' : List Factor} {largest largest' : Nat}

theorem estimateVariable_of_sweepVariable {name : String} {bits : List Bit}
    (run : sweepVariable operations query (factors, largest) (name, bits) s =
      .ok (factors', largest') s') :
    estimateVariable query (factors.map Factor.scope, largest) name =
      (factors'.map Factor.scope, largest') := by
  have bucket : (factors.map Factor.scope).filter (·.contains name) =
      (factors.filter (·.scope.contains name)).map Factor.scope := List.filter_map
  have others : (factors.map Factor.scope).filter (not ∘ fun scope => scope.contains name) =
      (factors.filter (not ∘ fun factor => factor.scope.contains name)).map Factor.scope :=
    List.filter_map
  simp only [sweepVariable, List.partition_eq_filter_filter] at run
  simp only [estimateVariable, List.partition_eq_filter_filter, bucket, others, List.isEmpty_map]
  split at run
  · next empty =>
    cases run
    rw [if_pos empty]
  · next mentioned =>
    rw [if_neg mentioned]
    obtain ⟨product, s₁, -, run⟩ := StoreM.bind_eq_ok.mp run
    obtain ⟨root, s₂, -, run⟩ := StoreM.bind_eq_ok.mp run
    cases run
    rw [List.map_append]
    rfl

theorem estimate_of_sweep {order : List (String × List Bit)}
    (run : order.foldlM (sweepVariable operations query) (factors, largest) s =
      .ok (factors', largest') s') :
    (order.map Prod.fst).foldl (estimateVariable query) (factors.map Factor.scope, largest) =
      (factors'.map Factor.scope, largest') := by
  induction order generalizing factors largest s with
  | nil =>
    cases run
    rfl
  | cons entry order ih =>
    obtain ⟨name, bits⟩ := entry
    rw [List.foldlM_cons] at run
    obtain ⟨⟨mid, between⟩, s₁, step, later⟩ := StoreM.bind_eq_ok.mp run
    rw [List.map_cons, List.foldl_cons, estimateVariable_of_sweepVariable step]
    exact ih later

def initialScopes (e : Engine) (relevant : NameSet) : List NameSet × Nat :=
  let scopes := scopesOf (e.tablesOf relevant)
  (scopes, largestScope scopes)

theorem scopes_factorsOf (e : Engine) (relevant : NameSet) :
    (e.factorsOf relevant).map Factor.scope = scopesOf (e.tablesOf relevant) := by
  rw [factorsOf, List.map_map]
  exact List.map_snd_zip (List.length_map _).le

theorem estimate_of_sweepPinned {names : List String}
    (run : sweepPinned operations query (e.withBits names) (e.factorsOf relevant) s =
      .ok (factors, largest) s') :
    names.foldl (estimateVariable query) (e.initialScopes relevant) =
      (factors.map Factor.scope, largest) := by
  obtain ⟨_, s₁, -, swept⟩ := StoreM.bind_eq_ok.mp run
  have estimated := estimate_of_sweep swept
  rw [withBits, List.map_map, scopes_factorsOf] at estimated
  rwa [show Prod.fst ∘ (fun name => (name, e.encoding.bitsOf name)) = id from rfl,
    List.map_id] at estimated

/-- A sweep that a dry run foretells. The answer is the product of what the sweep leaves, and the
cost is the size that the sweep finds; wherever the order is split, the scopes kept so far and the
largest size are those of the sweep. -/
structure Foretells (e : Engine) (query relevant : NameSet) (operations : BitOperations)
    (s : Store σ κ) (cost : Nat) : Prop where
  sweeps : combine operations query (e.withBits e.order) (e.factorsOf relevant) s =
    (do
      let (factors, _) ← sweepPinned operations query (e.withBits e.order) (e.factorsOf relevant)
      product (factors.map Factor.root) : StoreM σ κ Root) s
  cost : ∃ factors s',
    sweepPinned operations query (e.withBits e.order) (e.factorsOf relevant) s =
      .ok (factors, cost) s'
  scopes : ∀ done rest, e.order = done ++ rest → ∃ factors largest s',
    sweepPinned operations query (e.withBits done) (e.factorsOf relevant) s =
      .ok (factors, largest) s' ∧
    sweepPinned operations query (e.withBits e.order) (e.factorsOf relevant) s =
      (e.withBits rest).foldlM (sweepVariable operations query) (factors, largest) s' ∧
    done.foldl (estimateVariable query) (e.initialScopes relevant) =
      (factors.map Factor.scope, largest)

theorem foretells (sweeps : e.SweepsInScope query relevant operations s) :
    e.Foretells query relevant operations s
      (e.estimateCost (scopesOf (e.tablesOf relevant)) query) := by
  constructor
  · rw [combine, sweepPinned]
    simp only [bind_assoc]
  · obtain ⟨factors, largest, s', run, -⟩ := sweeps.live e.order [] (List.append_nil _).symm
    obtain rfl : largest = e.estimateCost (scopesOf (e.tablesOf relevant)) query :=
      (congrArg Prod.snd (estimate_of_sweepPinned run)).symm
    exact ⟨factors, s', run⟩
  · intro done rest split
    obtain ⟨factors, largest, s', run, onwards, -⟩ := sweeps.live done rest split
    exact ⟨factors, largest, s', run, onwards, estimate_of_sweepPinned run⟩

theorem run_of_estimated (checks : Checked σ e query evidence relevant operations) :
    let cost := e.estimateCost (scopesOf (e.tablesOf relevant)) query
    e.run query evidence false w = .ok (.cost cost) { w with
      journal := (w.journal.push (.asked query.toList evidence.toList false)).push
        (.estimated cost) } := by
  rw [run, bind_of_ok (record_run _), checks.apart]
  dsimp only
  rw [if_neg fun range => Bool.false_ne_true range.1, checks.ancestors, checked_bind_ok,
    checks.assigned, checked_bind_ok]
  rfl

theorem store_left_of_estimated (e : Engine) (query : NameSet) (evidence : Evidence) :
    (Workspace.left (e.run query evidence false w)).store = w.store := by
  have outcomes := run_outcomes e query evidence false w
  generalize e.run query evidence false w = result at outcomes ⊢
  cases outcomes with
  | refused => rfl
  | estimated => rfl
  | answered asked => cases asked

end Engine

namespace Model

variable {n : Network σ} {modelConfig : ModelConfig σ} {ordering : DependencyGraph → List String}
  {m : Model σ} {start w : Workspace σ κ}

def Declines (m : Model σ) (names : List String) (given : List (String × String))
    (err : Error σ) : Prop :=
  m.network.resolve given = .error err ∨
    ∃ evidence, m.network.resolve given = .ok evidence ∧ m.Refuses (.ofList names) evidence true err

/-- A dry run leaves the store as it is; and unless a check refuses the question itself, the dry run
returns the size that the sweep finds and foretells the scopes at each of its steps. -/
theorem dry_run_foretells (built : n.Built) (loads : load n modelConfig ordering = .ok (m, start))
    (run : Workspace.During m.Pinned start w) (pinned : m.Pinned w.store) (names : List String)
    (given : List (String × String)) :
    (Workspace.left (m.query names given false w)).store = w.store ∧
    ((∃ err w', m.Declines names given err ∧
        m.query names given true w = .error (.error err) w') ∨
      ∃ evidence relevant operations cost w',
        let query : NameSet := .ofList names
        let asked := { w with journal := w.journal.push (.asked query.toList evidence.toList true) }
        m.network.resolve given = .ok evidence ∧
        m.Checked σ query evidence relevant operations ∧
        m.query names given true w = m.answer query relevant operations asked ∧
        m.query names given false w = .ok (.cost cost) w' ∧
        m.Foretells query relevant operations w.store cost) := by
  obtain ⟨diagramOf, base, loaded⟩ :=
    loaded_of_load (Meaning.blank (Reading.plain modelConfig.store)) rfl built loads
  obtain ⟨sound, holds⟩ := loaded.holds_during run pinned
  rw [query_eq, query_eq]
  cases resolved : m.network.resolve given with
  | error err => exact ⟨rfl, .inl ⟨err, w, .inl resolved, rfl⟩⟩
  | ok evidence =>
    rw [checked_bind_ok, checked_bind_ok]
    refine ⟨Engine.store_left_of_estimated m.toEngine _ evidence, ?_⟩
    have outcomes := Engine.run_outcomes m.toEngine (.ofList names) evidence true w
    generalize m.run (.ofList names) evidence true w = result at outcomes ⊢
    cases outcomes with
    | refused refuses => exact .inl ⟨_, _, .inr ⟨evidence, resolved, refuses⟩, rfl⟩
    | estimated size asked => cases asked
    | @answered relevant operations asked checks =>
      have sweeps := Engine.sweepsInScope loaded.engine holds sound.ledger checks
      exact .inr ⟨evidence, relevant, operations, _, _, rfl, checks, rfl,
        Engine.run_of_estimated checks, Engine.foretells sweeps⟩

theorem dry_run_foretells_sprinkler :
    ∃ (m : Model Rat) (start w : Workspace Rat Rat) (relevant : NameSet)
      (operations : BitOperations) (cost : Nat),
      load .sprinkler ⟨.exact, .scalar⟩ (DependencyGraph.completedOrder []) = .ok (m, start) ∧
      m.Pinned start.store ∧
      m.query ["Rain"] [("Sprinkler", "on")] false start = .ok (.cost cost) w ∧
      w.store = start.store ∧
      m.Foretells (.ofList ["Rain"]) relevant operations start.store cost := by
  obtain ⟨m, start, loads⟩ := exists_load_sprinkler
  obtain ⟨diagramOf, base, loaded⟩ :=
    loaded_of_load (Meaning.blank (Reading.plain .exact)) rfl Network.built_sprinkler loads
  obtain ⟨-, -, -, -, network, -, scalar, -⟩ := load_eq_ok loads
  have resolved : m.network.resolve [("Sprinkler", "on")] =
      .ok ((∅ : Evidence).insert "Sprinkler" 0) := network ▸ rfl
  obtain ⟨queried, observed⟩ := asks_sprinkler loads
  obtain ⟨relevant, operations, checks⟩ := (loaded.admits queried observed).checked loaded.engine
  obtain ⟨unchanged, ⟨err, w, declines, -⟩ | ⟨evidence, relevant, operations, cost, w, -, -, -, run,
    foretold⟩⟩ := dry_run_foretells Network.built_sprinkler loads .start loaded.pinned ["Rain"]
      [("Sprinkler", "on")]
  · rcases declines with failed | ⟨evidence, found, refuses⟩
    · cases resolved.symm.trans failed
    · cases resolved.symm.trans found
      exact (refuses.not_checked loaded.engine (fun _ => scalar) checks).elim
  · rw [run] at unchanged
    exact ⟨m, start, w, relevant, operations, cost, loads, loaded.pinned, run, unchanged, foretold⟩

end Model

end BayesDiagram
