import BayesDiagram.Proofs.Inference.Labels
import BayesDiagram.Proofs.Inference.PinDiscipline
import BayesDiagram.Proofs.Inference.Refusals

/-! Scopes and diagrams. Wherever the sweep of a loaded model stops, every live factor tests only
bits of the variables in its scope, and the product of what is left only those of the query. So the
sum of a result over the query is always constant, and its posterior can be read with one label for
each queried variable, however long it is held. -/
namespace BayesDiagram

variable {σ κ : Type} [Scalar σ] [Coefficient σ κ] {config : StoreConfig σ}
  {R : Reading σ κ config}

open Store Factor

def Store.TestsWithin (s : Store σ κ) (e : Encoding) (scope : NameSet) (f : Root) : Prop :=
  ∃ bits, s.bitsUsed f = .ok bits ∧ ∀ bit ∈ bits, ∃ name ∈ scope, bit ∈ e.bitsOf name

omit [Scalar σ] in
theorem Store.RootShows.testsWithin {s : Store σ κ} {f : Root} {d : Diagram κ} {e : Encoding}
    {scope : NameSet} (shown : s.RootShows f d) (within : d.bits ⊆ scopeBits e.bitsOf scope) :
    s.TestsWithin e scope f := by
  obtain ⟨ids, listed, mem⟩ := shown.bitsUsed_set
  refine ⟨_, listed, fun bit tested => ?_⟩
  obtain ⟨id, there, rfl⟩ := List.mem_map.mp tested
  exact mem_scopeBits.mp (within ((mem id).mp (Std.TreeSet.mem_toList.mp there)))

def Factor.sweepPinned (operations : BitOperations) (query : NameSet)
    (order : List (String × List Bit)) (factors : List Factor) :
    StoreM σ κ (List Factor × Nat) := do
  factors.forM fun factor => Store.pin factor.root
  sweep operations query order factors

namespace Engine

variable {e : Engine} {query relevant : NameSet} {evidence : Evidence} {operations : BitOperations}
  {diagramOf : String → Diagram κ} {base : Root → Nat} {s : Store σ κ} {w : Workspace σ κ}

def withBits (e : Engine) (names : List String) : List (String × List Bit) :=
  names.map fun name => (name, e.encoding.bitsOf name)

def factorsOf (e : Engine) (relevant : NameSet) : List Factor :=
  let tables := e.tablesOf relevant
  (tables.zip (scopesOf tables)).map fun (t, scope) => ⟨scope, t.root⟩

/-- A sweep in which diagrams stay within scopes. Wherever the order is split, the sweep goes on
from factors that test only bits of their scopes; and the product of those that are left in the end
tests only bits of the query. -/
structure SweepsInScope (e : Engine) (query relevant : NameSet) (operations : BitOperations)
    (s : Store σ κ) : Prop where
  live : ∀ done rest, e.order = done ++ rest → ∃ factors largest s',
    sweepPinned operations query (e.withBits done) (e.factorsOf relevant) s =
      .ok (factors, largest) s' ∧
    sweepPinned operations query (e.withBits e.order) (e.factorsOf relevant) s =
      (e.withBits rest).foldlM (sweepVariable operations query) (factors, largest) s' ∧
    ∀ factor ∈ factors, s'.TestsWithin e.encoding factor.scope factor.root
  result : ∃ f s', combine operations query (e.withBits e.order) (e.factorsOf relevant) s =
      .ok f s' ∧ s'.TestsWithin e.encoding query f

theorem sweepPinned_spec (sound : e.Sound) (holds : e.Holds diagramOf base s)
    (ledger : s.Ledger R base []) (checks : Checked σ e query evidence relevant operations)
    {done rest : List String} (split : e.order = done ++ rest) :
    ∃ (left : List (Live κ)) (largest : Nat) (s' : Store σ κ),
      sweepPinned operations query (e.withBits done) (e.factorsOf relevant) s =
        .ok (left.map Prod.fst, largest) s' ∧
      sweepPinned operations query (e.withBits e.order) (e.factorsOf relevant) s =
        (e.withBits rest).foldlM (sweepVariable operations query) (left.map Prod.fst, largest) s' ∧
      (∀ pair ∈ left, s'.RootShows pair.1.root pair.2) ∧
      Scoped e.encoding.bitsOf relevant query done.reverse left := by
  have factors : e.factorsOf relevant = (e.live diagramOf relevant).map Prod.fst :=
    factors_eq_live diagramOf
  have shown := rootShows_of_mem_live sound holds checks
  obtain ⟨s₁, run₁, ledger₁, shows₁⟩ := pinAll_spec (e.live diagramOf relevant) ledger shown
  rw [List.append_nil] at ledger₁
  obtain ⟨left, largest, s', run, ledger', shown', -, sweeps⟩ :=
    sweep_spec (Valuation.blank R) operations query (e.withBits done)
      (e.live diagramOf relevant) ledger₁ fun pair mem => shows₁ _ _ (shown pair mem)
  refine ⟨left, largest, s', ?_, ?_, shown', scoped_of_sweeps _ sound holds checks sweeps⟩
  · rw [factors, sweepPinned, StoreM.bind_of_ok run₁, run]
  · -- the sweep of the whole order passes through the store after `done`
    rw [factors, sweepPinned, StoreM.bind_of_ok run₁, split, withBits, List.map_append, sweep,
      List.foldlM_append]
    exact StoreM.bind_of_ok run

theorem sweepsInScope (sound : e.Sound) (holds : e.Holds diagramOf base s)
    (ledger : s.Ledger R base []) (checks : Checked σ e query evidence relevant operations) :
    e.SweepsInScope query relevant operations s := by
  constructor
  · intro done rest split
    obtain ⟨left, largest, s', run, goesOn, shown, tidy⟩ :=
      sweepPinned_spec sound holds ledger checks split
    refine ⟨left.map Prod.fst, largest, s', run, goesOn, fun factor mem => ?_⟩
    obtain ⟨pair, inLeft, rfl⟩ := List.mem_map.mp mem
    exact (shown pair inLeft).testsWithin (tidy.within pair inLeft)
  · obtain ⟨f, d, s', left, run, -, shown', -, sweeps, bits, -⟩ :=
      combine_spec (Valuation.blank R) operations query (e.withBits e.order)
        (e.live diagramOf relevant) ledger (rootShows_of_mem_live sound holds checks)
    have factors : e.factorsOf relevant = (e.live diagramOf relevant).map Prod.fst :=
      factors_eq_live diagramOf
    rw [factors]
    exact ⟨f, s', run, shown'.testsWithin
      (bits.trans (allBits_of_sweeps _ sound holds checks sweeps))⟩

/-- How a request to a loaded model may end: with a posterior within the query, with a cost, or
refused for a reason of its own. -/
inductive Ends (R : Reading σ κ config) (e : Engine) (query : NameSet) :
    EStateM.Result (Failure σ) (Workspace σ κ) (Outcome σ) → Prop where
  | posterior {p : Posterior σ} {w' : Workspace σ κ} {d : Diagram κ} (sound : w'.store.Sound R)
      (known : ∀ name ∈ query, name ∈ e.graph.names) (asked : p.query = query.toList)
      (shown : w'.store.RootShows p.root d)
      (within : d.bits ⊆ scopeBits e.encoding.bitsOf query) :
      Ends R e query (.ok (.posterior p) w')
  | cost (size : Nat) (w' : Workspace σ κ) : Ends R e query (.ok (.cost size) w')
  | refused {err : Error σ} {w' : Workspace σ κ} (blames : err.BlamesRequest) :
      Ends R e query (.error (.error err) w')

theorem run_ends (query : NameSet) (evidence : Evidence) (answered : Bool) (sound : e.Sound)
    (scalar : e.normalization = .scalar) (holds : e.Holds diagramOf base w.store)
    (ledger : w.store.Ledger R base []) :
    Ends R e query (e.run query evidence answered w) := by
  have outcomes := run_outcomes e query evidence answered w
  generalize e.run query evidence answered w = result at outcomes ⊢
  cases outcomes with
  | refused refuses => exact .refused (refuses.blames sound scalar)
  | estimated size asked => exact .cost size _
  | answered asked checks =>
    obtain ⟨p, w', left, d, sum, stored, run, ledger', shown, -, asked, answers⟩ :=
      answer_spec (Valuation.blank R)
        (w := { w with journal := w.journal.push (.asked query.toList evidence.toList answered) })
        sound holds ledger checks
    rw [run]
    exact .posterior ledger'.sound (fun name => mem_names_of_checked checks) asked shown
      answers.bits

end Engine

namespace Model

variable {α : Type} {M : Meaning R α} {n : Network σ} {modelConfig : ModelConfig σ}
  {ordering : DependencyGraph → List String} {m : Model σ} {start w : Workspace σ κ}
  {diagramOf : String → Diagram κ} {base : Root → Nat}

theorem Loaded.pinned (loaded : m.Loaded M diagramOf base start.store) :
    m.Pinned start.store := by
  intro name t found
  obtain ⟨pinned, -⟩ := loaded.holds name (loaded.known name t found) t found
  rw [← loaded.ledger.sound.pinCount_pos_iff, loaded.ledger.count]
  exact Nat.add_pos_left pinned _

theorem Loaded.holds_during (loaded : m.Loaded M diagramOf base start.store)
    (run : Workspace.During m.Pinned start w) (pinned : m.Pinned w.store) :
    w.store.Sound R ∧ m.Holds diagramOf w.store.pinCount w.store := by
  obtain ⟨sound, shows⟩ := run.carries loaded.ledger.sound
  refine ⟨sound, fun name known t found => ?_⟩
  obtain ⟨-, shown, bits⟩ := loaded.holds name known t found
  exact ⟨sound.pinCount_pos_iff.mpr (pinned name t found),
    shows _ _ (fun _ pinned => pinned name t found) shown, bits⟩

theorem Loaded.exists_evaluate (loaded : m.Loaded M diagramOf base start.store) {s : Store σ κ}
    {p : Posterior σ} {d : Diagram κ} {query : NameSet} (sound : s.Sound R)
    (shown : s.RootShows p.root d) (known : ∀ name ∈ query, name ∈ m.graph.names)
    (asked : p.query = query.toList) (within : d.bits ⊆ scopeBits m.encoding.bitsOf query)
    (labels : List (String × String)) :
    ((∃ value, m.evaluate s p labels = .ok value) ↔
      ∀ name ∈ query, m.network.Labelled labels name) ∧
    ∀ fault, m.evaluate s p labels ≠ .error (.fault fault) := by
  have ordered := (sound.keeps shown).ordered
  have queried (name : String) : name ∈ p.query ↔ name ∈ query := by
    rw [asked, Std.ExtTreeSet.mem_toList]
  have owned (bit : Bit) (mem : bit ∈ d.bits) :
      ∃ name ∈ p.query, bit ∈ m.encoding.bitsOf name := by
    obtain ⟨name, there, owned⟩ := mem_scopeBits.mp (within mem)
    exact ⟨name, (queried name).mpr there, owned⟩
  have encoded (name : String) (mem : name ∈ p.query) :
      ∃ b, m.encoding.block? name = some b ∧ b.arity = m.network.arityOf name := by
    have known := known name ((queried name).mp mem)
    obtain ⟨b, found⟩ := loaded.engine.encoded name known
    exact ⟨b, found, by rw [← Encoding.arityOf_of_block? found, loaded.arities name known]⟩
  refine ⟨?_, evaluate_ne_fault shown ordered⟩
  rw [Model.exists_evaluate shown ordered owned encoded]
  simp only [queried]

/-- In a loaded model diagrams stay within scopes, at any point of every sweep; so no likelihood is
ever found to depend on bits, and as long as a posterior is held, it has a value for some labels
exactly when the last label of each queried variable is in its domain. -/
theorem diagrams_within_scopes (scalar : modelConfig.normalization = .scalar) (built : n.Built)
    (loads : load n modelConfig ordering = .ok (m, start))
    (run : Workspace.During m.Pinned start w) (pinned : m.Pinned w.store) :
    (∀ (query : NameSet) (evidence : Evidence),
      let asked := { w with journal := w.journal.push (.asked query.toList evidence.toList true) }
      (∃ err, m.run query evidence true w = .error (.error err) asked) ∨
        ∃ relevant operations, m.Checked σ query evidence relevant operations ∧
          m.run query evidence true w = m.answer query relevant operations asked ∧
          m.SweepsInScope query relevant operations w.store) ∧
    ∀ (query : NameSet) (evidence : Evidence) (answered : Bool),
      (∀ err w', m.run query evidence answered w = .error (.error err) w' →
        (∀ bits, err ≠ .notConstant bits) ∧ ∀ name, err ≠ .evidenceMarginalized name) ∧
      ∀ p w', m.run query evidence answered w = .ok (.posterior p) w' →
      ∀ later, Workspace.During (fun s => s.isPinned p.root = true) w' later → ∀ labels,
        ((∃ value, m.evaluate later.store p labels = .ok value) ↔
          ∀ name ∈ query, n.Labelled labels name) ∧
        ∀ fault, m.evaluate later.store p labels ≠ .error (.fault fault) := by
  obtain ⟨diagramOf, base, loaded⟩ :=
    loaded_of_load (Meaning.blank (Reading.plain modelConfig.store)) rfl built loads
  obtain ⟨-, -, -, -, rfl, -, normalization, -⟩ := load_eq_ok loads
  replace scalar := normalization.trans scalar
  obtain ⟨sound, holds⟩ := loaded.holds_during run pinned
  refine ⟨fun query evidence => ?_, fun query evidence answered => ?_⟩
  · have outcomes := Engine.run_outcomes m.toEngine query evidence true w
    generalize m.run query evidence true w = result at outcomes ⊢
    cases outcomes with
    | refused => exact .inl ⟨_, rfl⟩
    | estimated size asked => cases asked
    | answered asked checks =>
      exact .inr ⟨_, _, checks, rfl,
        Engine.sweepsInScope loaded.engine holds sound.ledger checks⟩
  have ends := Engine.run_ends query evidence answered loaded.engine scalar holds sound.ledger
  refine ⟨fun err w' refused => ?_, fun p w' answer later held labels => ?_⟩
  · rw [refused] at ends
    cases ends with
    | refused blames => cases blames <;> exact ⟨fun _ => nofun, fun _ => nofun⟩
  · rw [answer] at ends
    cases ends with
    | @posterior _ _ d sound' known asked shown within =>
      obtain ⟨sound'', shows⟩ := held.carries sound'
      have shown' := shows p.root d (fun _ pinned => pinned) shown
      exact loaded.exists_evaluate sound'' shown' known asked within labels

theorem diagrams_within_scopes_sprinkler :
    ∃ (m : Model Rat) (start w : Workspace Rat Rat) (p : Posterior Rat),
      load .sprinkler ⟨.exact, .scalar⟩ (DependencyGraph.completedOrder []) = .ok (m, start) ∧
      m.Pinned start.store ∧ m.run (.ofList ["Rain"]) ∅ true start = .ok (.posterior p) w ∧
      (∃ value, m.evaluate w.store p [("Rain", "snow"), ("Rain", "yes")] = .ok value) ∧
      ¬∃ value, m.evaluate w.store p [("Rain", "yes"), ("Rain", "snow")] = .ok value := by
  obtain ⟨m, start, loads⟩ := exists_load_sprinkler
  obtain ⟨diagramOf, base, loaded⟩ :=
    loaded_of_load (Meaning.blank (Reading.plain .exact)) rfl Network.built_sprinkler loads
  obtain ⟨-, graphed, -, -, -, -, scalar, -⟩ := load_eq_ok loads
  have graph : m.graph = ⟨["Rain", "Sprinkler"], [("Rain", "Sprinkler")]⟩ :=
    (Except.ok.inj graphed).symm
  have asks (name : String) : name ∈ (.ofList ["Rain"] : NameSet) ↔ name = "Rain" := by
    rw [NameSet.mem_ofList, List.mem_singleton]
  have admits : m.Admits (.ofList ["Rain"]) ∅ :=
    { queried := fun name mem => by
        rw [(asks name).mp mem, graph]
        exact .head _
      observed := fun name value seen => by
        rw [Std.ExtTreeMap.getElem?_empty] at seen
        cases seen
      apart := fun name _ => Std.ExtTreeMap.not_mem_empty }
  obtain ⟨relevant, operations, checks⟩ := admits.checked loaded.engine
  obtain ⟨-, requests⟩ :=
    diagrams_within_scopes rfl Network.built_sprinkler loads .start loaded.pinned
  obtain ⟨p, w, left, d, sum, stored, answer, -⟩ :=
    Engine.answer_spec (Valuation.blank (Reading.plain .exact))
      (w := { start with journal := start.journal.push (.asked ["Rain"] [] true) })
      loaded.engine loaded.holds loaded.ledger checks
  have asked : m.run (.ofList ["Rain"]) ∅ true start = .ok (.posterior p) w :=
    (Engine.run_of_checked loaded.engine scalar checks).trans answer
  have reads (labels : List (String × String)) :=
    ((requests _ _ _).2 p w asked w .start labels).1
  refine ⟨m, start, w, p, loads, loaded.pinned, asked, (reads _).mpr fun name mem => ?_,
    fun value => ?_⟩
  · rw [(asks name).mp mem]
    exact ⟨"yes", rfl, ⟨"Rain", ["yes", "no"]⟩, rfl, .head _⟩
  · obtain ⟨label, last, v, declared, inDomain⟩ :=
      (reads _).mp value "Rain" ((asks "Rain").mpr rfl)
    cases last
    cases declared
    exact absurd inDomain (by decide)

end Model

end BayesDiagram
