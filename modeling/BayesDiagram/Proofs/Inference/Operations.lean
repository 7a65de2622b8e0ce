import BayesDiagram.Proofs.Inference.ScopeSafety

/-! The operations of a request to a loaded model. They divide the bits of the relevant variables,
and no other bits, into those that are kept, those that are fixed at the digits of an observed value
and those that are summed out; and the sweep multiplies factors at relevant variables only, so that
every bit it handles was given its operation. -/
namespace BayesDiagram

variable {σ κ : Type} {evidence : Evidence} {query relevant : NameSet} {operations : BitOperations}

open Factor

namespace Engine

variable {e : Engine} {name : String}

/-! ### The table of operations -/

theorem mem_foldl_insert {pairs : List (Bit × BitOperation)} {start : BitOperations} {id : Nat} :
    id ∈ pairs.foldl (fun operations (bit, operation) => operations.insert bit.id operation) start ↔
      id ∈ start ∨ ∃ pair ∈ pairs, pair.1.id = id := by
  induction pairs generalizing start with
  | nil => simp
  | cons first pairs ih =>
    rw [List.foldl_cons, ih, Std.ExtTreeMap.mem_insert, Std.LawfulEqOrd.compare_eq_iff_eq,
      List.exists_mem_cons_iff]
    tauto

theorem mem_operationTable {names : List String} {assigned : List (List (Bit × BitOperation))}
    (found : (names.mapM (e.variableOperations query evidence) : Except (Error σ) _) =
      .ok assigned) {id : Nat} :
    id ∈ operationTable assigned ↔ ∃ name ∈ names, ⟨id⟩ ∈ e.encoding.bitsOf name := by
  rw [operationTable, mem_foldl_insert, or_iff_right Std.ExtTreeMap.not_mem_empty]
  constructor
  · rintro ⟨pair, mem, rfl⟩
    obtain ⟨part, inAssigned, inPart⟩ := List.mem_flatten.mp mem
    obtain ⟨name, listed, isPart⟩ := (mem_of_mapM_eq_ok found).mp inAssigned
    obtain ⟨b, here, -, rfl⟩ := variableOperations_eq_ok.mp isPart
    obtain ⟨⟨bit, place⟩, indexed, rfl⟩ := List.mem_map.mp inPart
    refine ⟨name, listed, ?_⟩
    rw [Encoding.bitsOf_of_block? here]
    exact List.mem_of_getElem? (List.mk_mem_zipIdx_iff_getElem?.mp indexed)
  · rintro ⟨name, listed, owned⟩
    obtain ⟨part, isPart⟩ := answer_of_mapM_eq_ok found listed
    obtain ⟨b, here, -, rfl⟩ := variableOperations_eq_ok.mp isPart
    rw [Encoding.bitsOf_of_block? here] at owned
    obtain ⟨place, at_place⟩ := List.mem_iff_getElem?.mp owned
    refine ⟨(⟨id⟩, (evidence.role query name).operation place), List.mem_flatten.mpr
      ⟨_, (mem_of_mapM_eq_ok found).mpr ⟨name, listed, isPart⟩, ?_⟩, rfl⟩
    exact List.mem_map.mpr ⟨(⟨id⟩, place), List.mk_mem_zipIdx_iff_getElem?.mpr at_place, rfl⟩

theorem mem_operations (checks : Checked σ e query evidence relevant operations) {id : Nat} :
    id ∈ operations ↔ ∃ name ∈ relevant, ⟨id⟩ ∈ e.encoding.bitsOf name := by
  obtain ⟨assigned, found, -, rfl⟩ := assignOperations_eq_ok.mp checks.assigned
  simp only [mem_operationTable found, Std.ExtTreeSet.mem_toList]

theorem operation_of_checked (sound : e.Sound)
    (checks : Checked σ e query evidence relevant operations) (isRelevant : name ∈ relevant)
    {place : Nat} {bit : Bit} (at_place : (e.encoding.bitsOf name)[place]? = some bit) :
    operations[bit.id]? = some ((evidence.role query name).operation place) := by
  have given : bit.id ∈ operations :=
    (mem_operations checks).mpr ⟨name, isRelevant, List.mem_of_getElem? at_place⟩
  -- that is known of the operation with the default, which is not reached
  have asked := (roles_of_checked sound checks isRelevant).2 place bit at_place
  rwa [Std.ExtTreeMap.getD_eq_getD_getElem?, Std.ExtTreeMap.getElem?_eq_some_getElem given,
    Option.getD_some, ← Option.some_inj, ← Std.ExtTreeMap.getElem?_eq_some_getElem given] at asked

/-- The operations of a request as a division of the bits of the relevant variables. Each bit has
one owner; the bits of queried variables are kept, those of observed ones are fixed at the binary
digits of the value, and all others are summed out. -/
structure Partitions (σ : Type) (e : Engine) (query relevant : NameSet) (evidence : Evidence)
    (operations : BitOperations) : Prop where
  encoded : ∀ name ∈ relevant,
    (e.encoding.bits name : Except (Error σ) (List Bit)) = .ok (e.encoding.bitsOf name)
  owned : ∀ name ∈ relevant, ∀ other ∈ relevant, ∀ bit ∈ e.encoding.bitsOf name,
    bit ∈ e.encoding.bitsOf other → name = other
  keys : ∀ id, id ∈ operations ↔ ∃ name ∈ relevant, ⟨id⟩ ∈ e.encoding.bitsOf name
  queried : ∀ name ∈ query, name ∈ relevant ∧
    ∀ bit ∈ e.encoding.bitsOf name, operations[bit.id]? = some .keep
  observed : ∀ name value, evidence[name]? = some value → name ∈ relevant ∧
    ∀ place bit, (e.encoding.bitsOf name)[place]? = some bit →
      operations[bit.id]? = some (if value.testBit place then .fixHigh else .fixLow)
  hidden : ∀ name ∈ relevant, name ∉ query → name ∉ evidence →
    ∀ bit ∈ e.encoding.bitsOf name, operations[bit.id]? = some .sumOut

theorem partitions_of_checked (sound : e.Sound)
    (checks : Checked σ e query evidence relevant operations) :
    e.Partitions σ query relevant evidence operations := by
  have seed (name : String) (mem : name ∈ query.toList ++ evidence.keys) : name ∈ relevant :=
    (mem_relevant sound checks).mpr (.of_seed mem)
  have asked {name : String} (isRelevant : name ∈ relevant) {operation : BitOperation}
      (same : ∀ place, (evidence.role query name).operation place = operation) :
      ∀ bit ∈ e.encoding.bitsOf name, operations[bit.id]? = some operation := fun bit mem => by
    obtain ⟨place, at_place⟩ := List.mem_iff_getElem?.mp mem
    rw [operation_of_checked sound checks isRelevant at_place, same]
  constructor
  case encoded =>
    exact fun name isRelevant => sound.bits_eq (mem_names_of_relevant sound checks isRelevant)
  case owned => exact fun name _ other _ bit mem mem' => sound.encoding.owner_unique mem mem'
  case keys => exact fun id => mem_operations checks
  case queried =>
    intro name mem
    have isRelevant := seed name (List.mem_append_left _ (Std.ExtTreeSet.mem_toList.mpr mem))
    exact ⟨isRelevant, asked isRelevant fun place => by rw [Evidence.role_eq_queried.mpr mem]; rfl⟩
  case observed =>
    intro name value seen
    have there : name ∈ evidence := (Std.ExtTreeMap.getElem?_eq_some_iff.mp seen).1
    have isRelevant := seed name (List.mem_append_right _ (Std.ExtTreeMap.mem_keys.mpr there))
    have notQueried : name ∉ query := fun mem =>
      List.find?_eq_none.mp checks.apart name (Std.ExtTreeSet.mem_toList.mpr mem)
        (Std.ExtTreeMap.contains_iff_mem.mpr there)
    refine ⟨isRelevant, fun place bit at_place => ?_⟩
    rw [operation_of_checked sound checks isRelevant at_place,
      Evidence.role_of_observed notQueried seen]
    rfl
  case hidden =>
    intro name isRelevant notQueried unseen
    have hides : evidence.hides query name := by
      rw [Evidence.hides_eq, Bool.not_eq_true', Bool.or_eq_false_iff]
      exact ⟨Bool.eq_false_iff.mpr (mt Std.ExtTreeSet.contains_iff_mem.mp notQueried),
        Bool.eq_false_iff.mpr (mt Std.ExtTreeMap.contains_iff_mem.mp unseen)⟩
    exact asked isRelevant fun place => by rw [Evidence.role_of_hides hides]; rfl

/-! ### The sweep -/

variable [Scalar σ] [Coefficient σ κ] {config : StoreConfig σ} {R : Reading σ κ config}
  {diagramOf : String → Diagram κ} {base : Root → Nat} {s : Store σ κ}

/-- A sweep that handles no bit without an operation. Before any variable of the order it holds
factors that mention this variable only if it is relevant and every bit of it has an operation. -/
def SweepsAssigned (e : Engine) (query relevant : NameSet) (operations : BitOperations)
    (s : Store σ κ) : Prop :=
  ∀ done name rest, e.order = done ++ name :: rest → ∃ factors largest s',
    sweepPinned operations query (e.withBits done) (e.factorsOf relevant) s =
      .ok (factors, largest) s' ∧
    sweepPinned operations query (e.withBits e.order) (e.factorsOf relevant) s =
      (e.withBits (name :: rest)).foldlM (sweepVariable operations query) (factors, largest) s' ∧
    ((∃ factor ∈ factors, name ∈ factor.scope) →
      name ∈ relevant ∧ ∀ bit ∈ e.encoding.bitsOf name, bit.id ∈ operations)

theorem sweepsAssigned (sound : e.Sound) (holds : e.Holds diagramOf base s)
    (ledger : s.Ledger R base []) (checks : Checked σ e query evidence relevant operations) :
    e.SweepsAssigned query relevant operations s := by
  intro done name rest split
  obtain ⟨left, largest, s', run, goesOn, -, tidy⟩ :=
    sweepPinned_spec sound holds ledger checks split
  refine ⟨left.map Prod.fst, largest, s', run, goesOn, ?_⟩
  rintro ⟨factor, mem, mentions⟩
  obtain ⟨pair, inLeft, rfl⟩ := List.mem_map.mp mem
  obtain ⟨isRelevant, -⟩ := (tidy.mentioned name).mp ⟨pair, inLeft, mentions⟩
  exact ⟨isRelevant, fun bit owned => (mem_operations checks).mpr ⟨name, isRelevant, owned⟩⟩

end Engine

namespace Model

variable [Scalar σ] [Coefficient σ κ] {n : Network σ} {modelConfig : ModelConfig σ}
  {ordering : DependencyGraph → List String} {m : Model σ} {start w : Workspace σ κ}

/-- A request to a loaded model that queries and observes different variables of the model, the
observed ones at values they have. It gives operations to the bits of the variables above the
queried and observed ones, as their roles ask, and to no other bits; and wherever its sweep has
factors to multiply, the variable is one of these. -/
theorem operations_partition (built : n.Built)
    (loads : load n modelConfig ordering = .ok (m, start))
    (run : Workspace.During m.Pinned start w) (pinned : m.Pinned w.store)
    (queried : ∀ name ∈ query, name ∈ m.graph.names ∧ name ∉ evidence)
    (observed : ∀ name value, evidence[name]? = some value →
      name ∈ m.graph.names ∧ value < n.arityOf name) :
    ∃ relevant operations,
      (m.graph.ancestors (query.toList ++ evidence.keys) : Except (Error σ) NameSet) =
        .ok relevant ∧
      (m.assignOperations relevant query evidence : Except (Error σ) BitOperations) =
        .ok operations ∧
      m.Partitions σ query relevant evidence operations ∧
      m.SweepsAssigned query relevant operations w.store ∧
      (modelConfig.normalization = .scalar →
        m.run query evidence true w = m.answer query relevant operations
          { w with journal := w.journal.push (.asked query.toList evidence.toList true) }) := by
  obtain ⟨diagramOf, base, loaded⟩ :=
    loaded_of_load (Meaning.blank (Reading.plain modelConfig.store)) rfl built loads
  obtain ⟨-, -, -, -, rfl, -, normalization, -⟩ := load_eq_ok loads
  obtain ⟨relevant, operations, checks⟩ := (loaded.admits queried observed).checked loaded.engine
  obtain ⟨sound, holds⟩ := loaded.holds_during run pinned
  exact ⟨relevant, operations, checks.ancestors, checks.assigned,
    Engine.partitions_of_checked loaded.engine checks,
    Engine.sweepsAssigned loaded.engine holds sound.ledger checks,
    fun scalar => Engine.run_of_checked loaded.engine (normalization.trans scalar) checks⟩

theorem operations_partition_sprinkler :
    let evidence : Evidence := (∅ : Evidence).insert "Sprinkler" 0
    ∃ (m : Model Rat) (start : Workspace Rat Rat) (relevant : NameSet) (operations : BitOperations),
      load .sprinkler ⟨.exact, .scalar⟩ (DependencyGraph.completedOrder []) = .ok (m, start) ∧
      (m.assignOperations relevant (.ofList ["Rain"]) evidence : Except (Error Rat) _) =
        .ok operations ∧
      operations[1]? = some .keep ∧ operations[2]? = some .fixLow ∧ 3 ∉ operations := by
  intro evidence
  obtain ⟨m, start, loads⟩ := exists_load_sprinkler
  obtain ⟨queried, observed⟩ := asks_sprinkler loads
  obtain ⟨diagramOf, base, loaded⟩ :=
    loaded_of_load (Meaning.blank (Reading.plain .exact)) rfl Network.built_sprinkler loads
  obtain ⟨-, graphed, -, encoded, network, -, -, ordered, -⟩ := load_eq_ok loads
  rw [network] at observed
  obtain ⟨relevant, operations, -, assigned, parts, -⟩ :=
    operations_partition Network.built_sprinkler loads .start loaded.pinned queried observed
  have graph : m.graph = ⟨["Rain", "Sprinkler"], [("Rain", "Sprinkler")]⟩ :=
    (Except.ok.inj graphed).symm
  rw [ordered, graph] at encoded
  have encodes : m.encoding.Encodes [("Rain", 2), ("Sprinkler", 2)] := encodingOf_spec encoded
  have rain : m.encoding.bitsOf "Rain" = [⟨1⟩] := Encoding.bitsOf_of_block?
    (encodes.block?_eq_some.mpr ⟨⟨"Rain", 2, 1⟩, .head _, rfl, rfl⟩)
  have sprinkler : m.encoding.bitsOf "Sprinkler" = [⟨2⟩] := Encoding.bitsOf_of_block?
    (encodes.block?_eq_some.mpr ⟨⟨"Sprinkler", 2, 2⟩, .tail _ (.head _), rfl, rfl⟩)
  refine ⟨m, start, relevant, operations, loads, assigned, ?_, ?_, ?_⟩
  · exact (parts.queried "Rain" (NameSet.mem_ofList.mpr (.head _))).2 ⟨1⟩ (rain ▸ .head _)
  · have seen : evidence["Sprinkler"]? = some 0 := Std.ExtTreeMap.getElem?_insert_self
    exact (parts.observed "Sprinkler" 0 seen).2 0 ⟨2⟩ (sprinkler ▸ rfl)
  · rw [parts.keys]
    rintro ⟨name, -, owned⟩
    have bound := (Encoding.Sound.handedOut ⟨_, encodes⟩ owned).2
    rw [encodes.size_eq] at bound
    exact absurd bound (by decide)

end Model

end BayesDiagram
