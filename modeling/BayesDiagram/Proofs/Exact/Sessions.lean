import BayesDiagram.Proofs.Exact.Compilation
import BayesDiagram.Proofs.Exact.Posterior
import BayesDiagram.Proofs.Inference.Sessions

/-! Answers over exact numbers, at any point of a session. -/
namespace BayesDiagram

open Store InferenceM Factor

variable {config : StoreConfig Rat} {noTolerance : config.tolerance = 0}
  {w start : Workspace Rat Rat}

theorem Assignment.ofList_of_forall {pairs : List (Bit × Bool)} {a : Bit → Bool}
    (agrees : ∀ pair ∈ pairs, pair.2 = a pair.1) {bit : Bit} (mem : bit ∈ pairs.map Prod.fst) :
    Assignment.ofList pairs bit = some (a bit) := by
  rw [Assignment.ofList]
  cases found : pairs.reverse.find? (·.1 == bit) with
  | none =>
    obtain ⟨pair, there, rfl⟩ := List.mem_map.mp mem
    have differs := List.find?_eq_none.mp found pair (List.mem_reverse.mpr there)
    exact absurd (beq_self_eq_true pair.1) differs
  | some pair =>
    have there := List.mem_reverse.mp (List.mem_of_find?_eq_some found)
    have same : (pair.1 == bit) = true :=
      List.find?_some (p := fun pair : Bit × Bool => pair.1 == bit) found
    rw [← beq_iff_eq.mp same, Option.map_some, agrees pair there]

def Network.Names {σ : Type} (n : Network σ) (labels : List (String × String))
    (names : List String) (v : Choice) : Prop :=
  ∀ name ∈ names, ∃ label, (Std.ExtTreeMap.ofList labels : Std.ExtTreeMap String String)[name]? =
    some label ∧ n.valueIndex name label = .ok (v name)

namespace Model

variable {n : Network Rat} {modelConfig : ModelConfig Rat}
  {ordering : DependencyGraph → List String} {m : Model Rat} {s : Store Rat Rat}
  {diagramOf : String → Diagram Rat} {base : Root → Nat} {held : List (Posterior Rat)}

def factor (m : Model Rat) (s : Store Rat Rat) (name : String) (v : Choice) : Rat :=
  match m.tables[name]? with
  | none => 0
  | some t =>
    match s.evaluate t.root fun bit => some (m.encoding.code v bit) with
    | .ok (some p) => p
    | _ => 0

theorem evaluate_of_names {p : Posterior Rat} {d : Diagram Rat} (encoding : m.encoding.Sound)
    (shown : s.RootShows p.root d) (ordered : d.Ordered)
    (within : ∀ bit ∈ d.bits, ∃ name ∈ p.query, bit ∈ m.encoding.bitsOf name)
    (arities : ∀ name ∈ p.query, m.encoding.arityOf name = m.network.arityOf name)
    {labels : List (String × String)} {v : Choice} (named : m.network.Names labels p.query v) :
    m.evaluate s p labels = .ok (d.value (m.encoding.code v)) := by
  let spelled (name : String) : List (Bit × Bool) :=
    (m.encoding.bitsOf name).map fun bit => (bit, m.encoding.code v bit)
  have covers (bit : Bit) (mem : bit ∈ d.bits) :
      Assignment.ofList (p.query.map spelled).flatten bit = some (m.encoding.code v bit) := by
    refine Assignment.ofList_of_forall (fun pair there => ?_) ?_
    · obtain ⟨part, inParts, inPart⟩ := List.mem_flatten.mp there
      obtain ⟨name, -, rfl⟩ := List.mem_map.mp inParts
      obtain ⟨other, -, rfl⟩ := List.mem_map.mp inPart
      rfl
    · obtain ⟨name, asked, owned⟩ := within bit mem
      refine List.mem_map.mpr ⟨(bit, m.encoding.code v bit), List.mem_flatten.mpr
        ⟨spelled name, List.mem_map_of_mem asked, List.mem_map.mpr ⟨bit, owned, rfl⟩⟩, rfl⟩
  refine BayesDiagram.bind_eq_ok.mpr ⟨p.query.map spelled, mapM_of_forall fun name mem => ?_, ?_⟩
  · obtain ⟨label, chosen, index⟩ := named name mem
    have below : v name < m.encoding.arityOf name := by
      rw [arities name mem]
      exact Network.valueIndex_lt index
    rw [chosen]
    dsimp only
    rw [index]
    exact Failure.liftError_eq_ok.mpr (Encoding.encode_code encoding below)
  · rw [shown.evaluate_covered ordered covers]
    rfl

theorem Loaded.vanishes (loaded : m.Loaded (.pointwise noTolerance) diagramOf base s) :
    m.Vanishes diagramOf := by
  intro name known v beyond inCodes
  obtain ⟨t, found, rfl, -, means⟩ := loaded.means name known
  refine (congrFun means (m.encoding.code v)).trans
    (Compiler.tableOf_outside ?_ (fun value parents mem => ?_) _)
  · rw [Compiler.spelled, Encoding.ofDigits_code loaded.engine.encoding inCodes,
      ← loaded.arities t.head known]
    exact beyond
  · cases Network.entry_fits ((Network.validate_eq_ok loaded.valid).1 _ t found) mem with
    | cons fits _ => exact fits

theorem Loaded.evaluate_table (loaded : m.Loaded (.pointwise noTolerance) diagramOf base s)
    {name : String} (known : name ∈ m.graph.names) :
    ∃ t, m.tables[name]? = some t ∧ ∀ v : Choice,
      s.evaluate t.root (fun bit => some (m.encoding.code v bit)) =
        .ok (some (m.factorOf diagramOf name v)) := by
  obtain ⟨t, found, -⟩ := loaded.engine.tabled name known
  obtain ⟨-, shown, -⟩ := loaded.holds name known t found
  exact ⟨t, found, fun v =>
    shown.evaluate_covered (loaded.ledger.sound.keeps shown).ordered fun _ _ => rfl⟩

theorem Loaded.factor_eq (loaded : m.Loaded (.pointwise noTolerance) diagramOf base s)
    {name : String} (known : name ∈ m.graph.names) :
    m.factor s name = m.factorOf diagramOf name := by
  obtain ⟨t, found, values⟩ := loaded.evaluate_table known
  funext v
  rw [factor, found]
  dsimp only
  rw [values]

theorem Loaded.factor_eq_entry (loaded : m.Loaded (.pointwise noTolerance) diagramOf base s)
    {name : String} (known : name ∈ m.graph.names) {t : ConditionalTable Rat}
    (found : m.network.table? name = some t) (enumerated : t.strategy = .enumeration) {v : Choice}
    (inDomain : ∀ other ∈ t.scope, v other < m.network.arityOf other) :
    m.factor s name v = t.entry (t.scope.map v) := by
  obtain ⟨t', found', rfl, isParent, means⟩ := loaded.means name known
  obtain rfl : t' = t := Option.some.inj (found'.symm.trans found)
  have inGraph (other : String) (inScope : other ∈ t'.scope) : other ∈ m.graph.names := by
    rcases List.mem_cons.mp inScope with rfl | above
    · exact known
    · have link := DependencyGraph.isParent_iff.mp ((isParent other).mpr above)
      exact (loaded.engine.closed _ link).1
  rw [loaded.factor_eq known]
  refine (congrFun means (m.encoding.code v)).trans ?_
  rw [enumerated, Compiler.enumeration_pointwise]
  refine congrArg t'.entry (List.map_congr_left fun other inScope => ?_)
  refine Encoding.ofDigits_code loaded.engine.encoding (Nat.lt_of_lt_of_le ?_
    (loaded.engine.encoding.arityOf_le_codes other))
  rw [loaded.arities other (inGraph other inScope)]
  exact inDomain other inScope

theorem sprinkler_factors (loads : load .sprinkler ⟨.exact, .scalar⟩
    (DependencyGraph.completedOrder []) = .ok (m, start)) :
    m.graph = ⟨["Rain", "Sprinkler"], [("Rain", "Sprinkler")]⟩ ∧
      (∀ v : Choice, v "Rain" < 2 →
        m.factor start.store "Rain" v = ConditionalTable.rain.entry [v "Rain"]) ∧
      ∀ v : Choice, v "Rain" < 2 → v "Sprinkler" < 2 → m.factor start.store "Sprinkler" v =
        ConditionalTable.sprinkler.entry [v "Sprinkler", v "Rain"] := by
  obtain ⟨diagramOf, base, loaded⟩ :=
    loaded_of_load (.pointwise rfl) rfl Network.built_sprinkler loads
  obtain ⟨-, graphed, -, -, network, -⟩ := load_eq_ok loads
  have graph : m.graph = ⟨["Rain", "Sprinkler"], [("Rain", "Sprinkler")]⟩ :=
    (Except.ok.inj graphed).symm
  refine ⟨graph, fun v rain => ?_, fun v rain sprinkler => ?_⟩
  · refine loaded.factor_eq_entry (t := .rain) (graph ▸ .head _) (network ▸ rfl) rfl ?_
    rw [network]
    exact List.forall_mem_singleton.mpr rain
  · refine loaded.factor_eq_entry (t := .sprinkler) (graph ▸ .tail _ (.head _)) (network ▸ rfl)
      rfl ?_
    rw [network]
    exact List.forall_mem_cons.mpr ⟨sprinkler, List.forall_mem_singleton.mpr rain⟩

theorem sprinkler_product (loads : load .sprinkler ⟨.exact, .scalar⟩
    (DependencyGraph.completedOrder []) = .ok (m, start)) {v : Choice} (rain : v "Rain" < 2)
    (sprinkler : v "Sprinkler" < 2) :
    (["Rain", "Sprinkler"].map (m.factor start.store · v)).prod =
      ConditionalTable.rain.entry [v "Rain"] *
        ConditionalTable.sprinkler.entry [v "Sprinkler", v "Rain"] := by
  obtain ⟨-, first, second⟩ := sprinkler_factors loads
  rw [List.map_cons, List.map_singleton, List.prod_pair, first v rain, second v rain sprinkler]

/-- A posterior that gives a share to a choice of values, both by the bits of their codes and by
their labels. -/
def Gives (m : Model Rat) (s : Store Rat Rat) (p : Posterior Rat) (v : Choice)
    (share : Rat) : Prop :=
  s.evaluate p.root (fun bit => some (m.encoding.code v bit)) = .ok (some share) ∧
    ∀ labels, m.network.Names labels p.query v → m.evaluate s p labels = .ok share

theorem Loaded.answers (loaded : m.Loaded (.pointwise noTolerance) diagramOf base start.store)
    (scalar : m.normalization = .scalar) (session : m.Session start held w) {query : NameSet}
    {evidence : Evidence} (admits : m.Admits query evidence) :
    ∃ relevant p w',
      (∀ name, name ∈ relevant ↔ m.graph.Above (query.toList ++ evidence.keys) name) ∧
      m.run query evidence true w = .ok (.posterior p) w' ∧ p.query = query.toList ∧
      p.likelihood =
        evidence.mass m.network.arityOf query relevant (m.factor start.store) ∧
      (p.likelihood = 0 → w'.store.constantValue? p.root = .ok (some 0)) ∧
      (p.likelihood ≠ 0 → ∀ v : Choice, m.Gives w'.store p v
        (evidence.weight m.network.arityOf query relevant (m.factor start.store) v /
          p.likelihood)) := by
  have keeps := session.keeps loaded.engine loaded.ledger loaded.holds
  obtain ⟨relevant, operations, checks⟩ := admits.checked loaded.engine
  have known (name : String) (isRelevant : name ∈ relevant) : name ∈ m.graph.names :=
    Engine.mem_names_of_relevant loaded.engine checks isRelevant
  have queried (name : String) (mem : name ∈ query) : name ∈ relevant :=
    Engine.mem_relevant_of_mem_query loaded.engine checks mem
  obtain ⟨p, w', left, d, sum, stored, run, ledger, shown, -, asked, answers⟩ :=
    Engine.answer_spec (Valuation.pointwise noTolerance)
      (w := { w with journal := w.journal.push (.asked query.toList evidence.toList true) })
      loaded.engine keeps.holds keeps.ledger checks
  obtain ⟨mass, zero, weights⟩ := answers.posterior loaded.engine keeps.holds loaded.vanishes checks
  have arities (name : String) (isRelevant : name ∈ relevant) :
      m.encoding.arityOf name = m.network.arityOf name :=
    loaded.arities name (known name isRelevant)
  have factors (name : String) (isRelevant : name ∈ relevant) :
      m.factorOf diagramOf name = m.factor start.store name :=
    (loaded.factor_eq (known name isRelevant)).symm
  have ordered := (ledger.sound.keeps shown).ordered
  refine ⟨relevant, p, w', fun name => Engine.mem_relevant loaded.engine checks, ?_, asked, ?_,
    fun none => ?_, fun nonzero v => ?_⟩
  · rw [Engine.run_of_checked loaded.engine scalar checks, run]
  · rw [mass, Evidence.mass_congr queried arities factors]
  · rw [constantValue?, shown.edge_eq, zero none]
    rfl
  · rw [← Evidence.weight_congr arities factors, ← weights nonzero v]
    refine ⟨shown.evaluate_covered ordered fun _ _ => rfl, fun labels named =>
      evaluate_of_names loaded.engine.encoding shown ordered (fun bit mem => ?_)
        (fun name mem => ?_) named⟩
    · obtain ⟨name, there, owned⟩ := mem_scopeBits.mp (answers.bits mem)
      exact ⟨name, asked ▸ Std.ExtTreeSet.mem_toList.mpr there, owned⟩
    · rw [asked, Std.ExtTreeSet.mem_toList] at mem
      exact arities name (queried name mem)

/-- A loaded model answers every question about its variables by the sum of products of its tables,
whatever it was asked and whatever was released before. -/
theorem answers_sums_of_products (noTolerance : modelConfig.store.tolerance = 0)
    (scalar : modelConfig.normalization = .scalar) (built : n.Built)
    (loads : load n modelConfig ordering = .ok (m, start)) :
    (∀ name ∈ m.graph.names, ∃ t, m.tables[name]? = some t ∧ ∀ v : Choice,
      start.store.evaluate t.root (fun bit => some (m.encoding.code v bit)) =
        .ok (some (m.factor start.store name v))) ∧
    ∀ (held : List (Posterior Rat)) (w : Workspace Rat Rat), m.Session start held w →
    ∀ (query : NameSet) (evidence : Evidence),
      (∀ name ∈ query, name ∈ m.graph.names ∧ name ∉ evidence) →
      (∀ name value, evidence[name]? = some value →
        name ∈ m.graph.names ∧ value < n.arityOf name) →
    ∃ relevant p w',
      (∀ name, name ∈ relevant ↔ m.graph.Above (query.toList ++ evidence.keys) name) ∧
      m.run query evidence true w = .ok (.posterior p) w' ∧
      (∀ names given, Std.ExtTreeSet.ofList names = query → n.resolve given = .ok evidence →
        m.query names given true w = .ok (.posterior p) w') ∧
      p.query = query.toList ∧
      p.likelihood = evidence.mass n.arityOf query relevant (m.factor start.store) ∧
      (p.likelihood = 0 → w'.store.constantValue? p.root = .ok (some 0)) ∧
      (p.likelihood ≠ 0 → ∀ v : Choice, m.Gives w'.store p v
        (evidence.weight n.arityOf query relevant (m.factor start.store) v / p.likelihood)) := by
  obtain ⟨diagramOf, base, loaded⟩ := loaded_of_load (.pointwise noTolerance) rfl built loads
  obtain ⟨-, -, -, -, rfl, -, normalization, -⟩ := load_eq_ok loads
  refine ⟨fun name known => ?_, fun held w session query evidence queried observed => ?_⟩
  · rw [loaded.factor_eq known]
    exact loaded.evaluate_table known
  · obtain ⟨relevant, p, w', isRelevant, run, answer⟩ :=
      loaded.answers (normalization.trans scalar) session (loaded.admits queried observed)
    refine ⟨relevant, p, w', isRelevant, run, fun names given same resolved => ?_, answer⟩
    rw [query_eq, resolved, same]
    exact run

theorem rain_given_sprinkler : ∃ (m : Model Rat) (start w : Workspace Rat Rat) (p : Posterior Rat),
    load .sprinkler ⟨.exact, .scalar⟩ (DependencyGraph.completedOrder []) = .ok (m, start) ∧
    m.query ["Rain"] [("Sprinkler", "on")] true start = .ok (.posterior p) w ∧
    p.likelihood = 161 / 500 ∧ m.evaluate w.store p [("Rain", "yes")] = .ok (1 / 161) := by
  obtain ⟨m, start, loads⟩ := exists_load_sprinkler
  obtain ⟨graph, -⟩ := sprinkler_factors loads
  obtain ⟨-, graphed, -, -, network, -⟩ := load_eq_ok loads
  let query : NameSet := .ofList ["Rain"]
  let evidence : Evidence := (∅ : Evidence).insert "Sprinkler" 0
  have queried : ∀ name ∈ query, name ∈ ["Rain", "Sprinkler"] ∧ name ∉ evidence := by
    intro name mem
    obtain rfl := List.mem_singleton.mp (NameSet.mem_ofList.mp mem)
    decide +kernel
  have observed (name : String) (value : Nat) (seen : evidence[name]? = some value) :
      name ∈ ["Rain", "Sprinkler"] ∧ value < Network.sprinkler.arityOf name := by
    rw [Std.ExtTreeMap.getElem?_insert] at seen
    split at seen
    · next same =>
      cases seen
      obtain rfl := Std.LawfulEqOrd.eq_of_compare same
      decide +kernel
    · cases seen
  obtain ⟨relevant, p, w, isRelevant, -, run, asked, mass, -, shares⟩ :=
    (answers_sums_of_products rfl rfl Network.built_sprinkler loads).2 [] start .start query
      evidence (graph ▸ queried) (graph ▸ observed)
  have whole : relevant = .ofList ["Rain", "Sprinkler"] := by
    ext name
    rw [isRelevant, NameSet.mem_ofList]
    refine ⟨fun above => ?_, fun mem => .of_seed mem⟩
    have closed := (graphOf_spec Network.built_sprinkler graphed).2.2.1
    rw [graph] at closed above
    exact closed.above_mem (fun _ => id) above
  subst whole
  have weight (v : Choice) (below : v "Rain" < 2) :
      evidence.weight Network.sprinkler.arityOf query (.ofList ["Rain", "Sprinkler"])
          (m.factor start.store) v =
        ConditionalTable.rain.entry [v "Rain"] *
          ConditionalTable.sprinkler.entry [0, v "Rain"] :=
    sprinkler_product loads (v := evidence.observe v) below Nat.zero_lt_two
  have likelihood : p.likelihood = 161 / 500 := by
    rw [mass, Evidence.mass, show query.toList = ["Rain"] from rfl, sumOver,
      show Network.sprinkler.arityOf "Rain" = 2 from rfl, Finset.sum_range_succ,
      Finset.sum_range_one, sumOver, sumOver, weight _ Nat.zero_lt_two, weight _ Nat.one_lt_two]
    decide +kernel
  refine ⟨m, start, w, p, loads, run ["Rain"] [("Sprinkler", "on")] rfl rfl, likelihood, ?_⟩
  rw [(shares (by rw [likelihood]; decide +kernel) fun _ => 0).2 [("Rain", "yes")] ?_,
    weight _ Nat.zero_lt_two, likelihood]
  · exact congrArg Except.ok (by decide +kernel)
  · intro name mem
    rw [asked, Std.ExtTreeSet.mem_toList] at mem
    obtain rfl := List.mem_singleton.mp (NameSet.mem_ofList.mp mem)
    exact ⟨"yes", rfl, network ▸ rfl⟩

end Model

end BayesDiagram
