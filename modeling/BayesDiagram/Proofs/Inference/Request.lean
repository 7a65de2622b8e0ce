import BayesDiagram.Proofs.Inference.Answer
import BayesDiagram.Proofs.Network.Ancestors

/-! Requests to an engine. A request passes the checks if it queries and observes different
variables of the model, the observed ones at values they have; any other is refused and leaves the
store as it was. -/
namespace BayesDiagram

namespace Engine

variable {σ κ : Type} [Scalar σ] [Coefficient σ κ] {config : StoreConfig σ}
  {R : Reading σ κ config} {α : Type} (V : Valuation R α) {base : Root → Nat}
  {w : Workspace σ κ} {e : Engine} {relevant query : NameSet} {evidence : Evidence}
  {operations : BitOperations} {name : String} {diagramOf : String → Diagram κ}

open Store Factor InferenceM

/-- What every loaded model has: variables in their order, each with a block of bits and with a
table of its parents. -/
structure Sound (e : Engine) : Prop where
  encoding : e.encoding.Sound
  closed : e.graph.Closed
  order : e.order.Perm e.graph.names
  nodup : e.graph.names.Nodup
  encoded : ∀ name ∈ e.graph.names, ∃ b, e.encoding.block? name = some b
  tabled : ∀ name ∈ e.graph.names, ∃ t, e.tables[name]? = some t ∧ t.head = name ∧
    ∀ parent, parent ∈ t.parents ↔ e.graph.IsParent parent name

def Holds (e : Engine) (diagramOf : String → Diagram κ) (base : Root → Nat)
    (s : Store σ κ) : Prop :=
  ∀ name ∈ e.graph.names, ∀ t, e.tables[name]? = some t →
    0 < base t.root ∧ s.RootShows t.root (diagramOf name) ∧
      (diagramOf name).bits ⊆ scopeBits e.encoding.bitsOf (.ofList t.scope)

structure Checked (σ : Type) (e : Engine) (query : NameSet) (evidence : Evidence)
    (relevant : NameSet) (operations : BitOperations) : Prop where
  apart : query.toList.find? evidence.contains = none
  ancestors : (e.graph.ancestors (query.toList ++ evidence.keys) : Except (Error σ) NameSet) =
    .ok relevant
  assigned : (e.assignOperations relevant query evidence : Except (Error σ) BitOperations) =
    .ok operations

def tablesOf (e : Engine) (relevant : NameSet) : List CompiledTable :=
  relevant.toList.filterMap fun name => e.tables[name]?

def scopesOf (tables : List CompiledTable) : List NameSet :=
  tables.map fun t => NameSet.union [.ofList t.scope]

def answer (e : Engine) (query relevant : NameSet) (operations : BitOperations) :
    InferenceM σ κ (Outcome σ) := do
  let tables := e.tablesOf relevant
  let result ← onStore (combine operations query
    (e.order.map fun name => (name, e.encoding.bitsOf name))
    ((tables.zip (scopesOf tables)).map fun (t, scope) => ⟨scope, t.root⟩))
  let posterior ← normalize result query (query.toList.flatMap e.encoding.bitsOf)
  record (.likelihood posterior.likelihood)
  return .posterior posterior

omit [Scalar σ] in
theorem Sound.bits_eq (sound : e.Sound) (mem : name ∈ e.graph.names) :
    (e.encoding.bits name : Except (Error σ) (List Bit)) = .ok (e.encoding.bitsOf name) := by
  obtain ⟨b, found⟩ := sound.encoded name mem
  exact Encoding.bits_of_block? found

omit [Scalar σ] in
theorem orderBits_cases (e : Engine) :
    (e.order.mapM fun name => (e.encoding.bits name).map (name, ·) : Except (Error σ) _) =
        .ok (e.order.map fun name => (name, e.encoding.bitsOf name)) ∨
      ∃ name ∈ e.order, ∃ err : Error σ, e.encoding.bits name = .error err ∧
        (e.order.mapM fun name => (e.encoding.bits name).map (name, ·)) = .error err := by
  refine (mapM_cases e.order fun name pair found => ?_).imp_right ?_
  · obtain ⟨bits, read, rfl⟩ := map_eq_ok.mp found
    rw [Encoding.eq_bitsOf read]
  · rintro ⟨name, listed, err, failed, run⟩
    refine ⟨name, listed, err, ?_, run⟩
    cases found : (e.encoding.bits name : Except (Error σ) _) with
    | error other =>
      rw [found] at failed
      cases failed
      rfl
    | ok bits =>
      rw [found] at failed
      cases failed

omit [Scalar σ] in
theorem expand_cases (e : Engine) (query : NameSet) :
    (e.encoding.expand query.toList : Except (Error σ) (List Bit)) =
        .ok (query.toList.flatMap e.encoding.bitsOf) ∨
      ∃ name ∈ query, ∃ err : Error σ, e.encoding.bits name = .error err ∧
        e.encoding.expand query.toList = .error err := by
  have known (name : String) (bits : List Bit)
      (read : (e.encoding.bits name : Except (Error σ) _) = .ok bits) :
      bits = e.encoding.bitsOf name := Encoding.eq_bitsOf read
  rcases mapM_cases query.toList known with run | ⟨name, listed, err, failed, run⟩
  · exact .inl (by rw [Encoding.expand, run]; rfl)
  · exact .inr ⟨name, Std.ExtTreeSet.mem_toList.mp listed, err, failed, by
      rw [Encoding.expand, run]; rfl⟩

inductive Refuses (e : Engine) (query : NameSet) (evidence : Evidence) (answered : Bool) :
    Error σ → Prop where
  | overlap {name : String} (shared : query.toList.find? evidence.contains = some name) :
      Refuses e query evidence answered (.queryEvidenceOverlap name)
  | range (asked : answered = true) (unscaled : e.normalization = .range) :
      Refuses e query evidence answered .rangeNormalization
  | ancestors {err : Error σ}
      (failed : e.graph.ancestors (query.toList ++ evidence.keys) = .error err) :
      Refuses e query evidence answered err
  | operations {relevant : NameSet} {err : Error σ}
      (apart : query.toList.find? evidence.contains = none)
      (ancestors : (e.graph.ancestors (query.toList ++ evidence.keys) : Except (Error σ) NameSet) =
        .ok relevant)
      (failed : e.assignOperations relevant query evidence = .error err) :
      Refuses e query evidence answered err
  | bits {name : String} {err : Error σ} (listed : name ∈ e.order ∨ name ∈ query)
      (failed : e.encoding.bits name = .error err) : Refuses e query evidence answered err

inductive Outcomes (e : Engine) (query : NameSet) (evidence : Evidence) (answered : Bool)
    (w : Workspace σ κ) : EStateM.Result (Failure σ) (Workspace σ κ) (Outcome σ) → Prop where
  | refused {err : Error σ} (refuses : e.Refuses query evidence answered err) :
      Outcomes e query evidence answered w (.error (.error err) w)
  | estimated (size : Nat) (asked : answered = false) :
      Outcomes e query evidence answered w
        (.ok (.cost size) { w with journal := w.journal.push (.estimated size) })
  | answered {relevant : NameSet} {operations : BitOperations} (asked : answered = true)
      (checks : Checked σ e query evidence relevant operations) :
      Outcomes e query evidence answered w (e.answer query relevant operations w)

omit [Scalar σ] in
theorem mem_names_of_checked (checks : Checked σ e query evidence relevant operations)
    (mem : name ∈ query) : name ∈ e.graph.names :=
  DependencyGraph.mem_names_of_ancestors checks.ancestors
    (List.mem_append_left _ (Std.ExtTreeSet.mem_toList.mpr mem))

theorem run_outcomes (e : Engine) (query : NameSet) (evidence : Evidence) (answered : Bool)
    (w : Workspace σ κ) :
    Outcomes e query evidence answered
      { w with journal := w.journal.push (.asked query.toList evidence.toList answered) }
      (e.run query evidence answered w) := by
  rw [run, bind_of_ok (record_run _)]
  generalize ({ w with journal := _ } : Workspace σ κ) = w
  cases apart : query.toList.find? evidence.contains with
  | some name => exact .refused (.overlap apart)
  | none =>
    by_cases range : answered = true ∧ e.normalization = .range
    · dsimp only
      rw [if_pos range]
      exact .refused (.range range.1 range.2)
    · dsimp only
      rw [if_neg range]
      cases ancestors : (e.graph.ancestors (query.toList ++ evidence.keys) :
          Except (Error σ) NameSet) with
      | error err => exact .refused (.ancestors ancestors)
      | ok relevant =>
        rw [checked_bind_ok]
        cases assigned : (e.assignOperations relevant query evidence :
            Except (Error σ) BitOperations) with
        | error err => exact .refused (.operations apart ancestors assigned)
        | ok operations =>
          have checks : Checked σ e query evidence relevant operations :=
            ⟨apart, ancestors, assigned⟩
          rw [checked_bind_ok]
          cases answered with
          | false => exact .estimated _ rfl
          | true =>
            rw [if_neg (by decide)]
            rcases e.orderBits_cases (σ := σ) with run | ⟨name, listed, err, failed, run⟩
            · rw [run, checked_bind_ok]
              rcases e.expand_cases (σ := σ) query with run | ⟨name, queried, err, failed, run⟩
              · rw [run, checked_bind_ok]
                exact .answered rfl checks
              · rw [run, checked_bind_error]
                exact .refused (.bits (.inr queried) failed)
            · rw [run, checked_bind_error]
              exact .refused (.bits (.inl listed) failed)

omit [Scalar σ] in
theorem Refuses.not_checked (sound : e.Sound) {answered : Bool} {err : Error σ}
    (refuses : e.Refuses query evidence answered err)
    (scaled : answered = true → e.normalization = .scalar)
    (checks : Checked σ e query evidence relevant operations) : False := by
  cases refuses with
  | overlap shared => cases shared.symm.trans checks.apart
  | range asked unscaled => cases unscaled.symm.trans (scaled asked)
  | ancestors failed => cases failed.symm.trans checks.ancestors
  | @operations other err apart ancestors failed =>
    obtain rfl : other = relevant := Except.ok.inj (ancestors.symm.trans checks.ancestors)
    cases failed.symm.trans checks.assigned
  | @bits name err listed failed =>
    have known : name ∈ e.graph.names :=
      listed.elim sound.order.mem_iff.mp (mem_names_of_checked checks)
    cases failed.symm.trans (sound.bits_eq known)

/-- A request for variables of the model, the observed ones different from the queried ones and at
values that they have. -/
structure Admits (e : Engine) (query : NameSet) (evidence : Evidence) : Prop where
  queried : ∀ name ∈ query, name ∈ e.graph.names
  observed : ∀ name value, evidence[name]? = some value →
    name ∈ e.graph.names ∧ value < e.encoding.arityOf name
  apart : ∀ name ∈ query, name ∉ evidence

omit [Scalar σ] in
theorem Admits.checked (admits : e.Admits query evidence) (sound : e.Sound) :
    ∃ relevant operations, Checked σ e query evidence relevant operations := by
  have known (seed : String) (mem : seed ∈ query.toList ++ evidence.keys) :
      seed ∈ e.graph.names := by
    rcases List.mem_append.mp mem with queried | observed
    · exact admits.queried seed (Std.ExtTreeSet.mem_toList.mp queried)
    · have seen := Std.ExtTreeMap.getElem?_eq_some_getElem (Std.ExtTreeMap.mem_keys.mp observed)
      exact (admits.observed seed _ seen).1
  obtain ⟨relevant, ancestors, mem⟩ := DependencyGraph.ancestors_spec σ sound.closed known
  have fits (name : String) (isRelevant : name ∈ relevant) :
      ∃ b, e.encoding.block? name = some b ∧ (evidence.role query name).Fits b.arity := by
    obtain ⟨b, found⟩ :=
      sound.encoded name (sound.closed.above_mem known ((mem name).mp isRelevant))
    refine ⟨b, found, ?_⟩
    cases role : evidence.role query name with
    | queried => trivial
    | hidden => trivial
    | observed value =>
      rw [← Encoding.arityOf_of_block? found]
      exact (admits.observed name value (Evidence.seen_of_role role)).2
  have unqueried (name : String) (seen : name ∈ evidence) : name ∈ relevant ∧ name ∉ query :=
    ⟨(mem name).mpr (.of_seed (List.mem_append_right _ (Std.ExtTreeMap.mem_keys.mpr seen))),
      fun queried => admits.apart name queried seen⟩
  obtain ⟨operations, assigned⟩ := exists_assignOperations σ sound.encoding fits unqueried
  refine ⟨relevant, operations, List.find?_eq_none.mpr fun name queried seen => ?_, ancestors,
    assigned⟩
  exact admits.apart name (Std.ExtTreeSet.mem_toList.mp queried)
    (Std.ExtTreeMap.contains_iff_mem.mp seen)

theorem run_of_checked (sound : e.Sound) (scalar : e.normalization = .scalar)
    (checks : Checked σ e query evidence relevant operations) :
    e.run query evidence true w = e.answer query relevant operations
      { w with journal := w.journal.push (.asked query.toList evidence.toList true) } := by
  have outcomes := run_outcomes e query evidence true w
  generalize e.run query evidence true w = result at outcomes ⊢
  cases outcomes with
  | refused refuses => exact (refuses.not_checked sound (fun _ => scalar) checks).elim
  | estimated size asked => cases asked
  | @answered other operations' asked checks' =>
    obtain rfl : relevant = other := Except.ok.inj (checks.ancestors.symm.trans checks'.ancestors)
    obtain rfl : operations = operations' :=
      Except.ok.inj (checks.assigned.symm.trans checks'.assigned)
    rfl

/-! ### Answers -/

def live (e : Engine) (diagramOf : String → Diagram κ) (relevant : NameSet) : List (Live κ) :=
  relevant.toList.filterMap fun name => (e.tables[name]?).map fun t =>
    (⟨NameSet.union [.ofList t.scope], t.root⟩, diagramOf name)

omit [Scalar σ] [Coefficient σ κ] in
theorem mem_live {pair : Live κ} :
    pair ∈ e.live diagramOf relevant ↔ ∃ name ∈ relevant, ∃ t, e.tables[name]? = some t ∧
      pair = (⟨NameSet.union [.ofList t.scope], t.root⟩, diagramOf name) := by
  simp only [live, List.mem_filterMap, Std.ExtTreeSet.mem_toList, Option.map_eq_some_iff,
    @eq_comm _ pair]

omit [Scalar σ] [Coefficient σ κ] in
theorem factors_eq_live (diagramOf : String → Diagram κ) :
    ((e.tablesOf relevant).zip (scopesOf (e.tablesOf relevant))).map
        (fun (t, scope) => (⟨scope, t.root⟩ : Factor)) =
      (e.live diagramOf relevant).map Prod.fst := by
  rw [scopesOf, ← List.map_prod_left_eq_zip, live, tablesOf, List.map_map, List.map_filterMap,
    List.map_filterMap]
  refine List.filterMap_congr fun name _ => ?_
  rw [Option.map_map]
  rfl

omit [Scalar σ] in
theorem mem_relevant (sound : e.Sound)
    (checks : Checked σ e query evidence relevant operations) :
    name ∈ relevant ↔ e.graph.Above (query.toList ++ evidence.keys) name := by
  obtain ⟨set, run, mem⟩ := DependencyGraph.ancestors_spec σ sound.closed fun seed =>
    DependencyGraph.mem_names_of_ancestors checks.ancestors
  obtain rfl : set = relevant := Except.ok.inj (run.symm.trans checks.ancestors)
  exact mem name

omit [Scalar σ] in
theorem mem_names_of_relevant (sound : e.Sound)
    (checks : Checked σ e query evidence relevant operations) (isRelevant : name ∈ relevant) :
    name ∈ e.graph.names :=
  sound.closed.above_mem (fun _ => DependencyGraph.mem_names_of_ancestors checks.ancestors)
    ((mem_relevant sound checks).mp isRelevant)

omit [Scalar σ] in
theorem roles_of_checked (sound : e.Sound)
    (checks : Checked σ e query evidence relevant operations) (isRelevant : name ∈ relevant) :
    (∃ b, e.encoding.block? name = some b ∧ (evidence.role query name).Fits b.arity) ∧
      (evidence.role query name).Assigned operations (e.encoding.bitsOf name) := by
  obtain ⟨assigned, found, -, rfl⟩ := assignOperations_eq_ok.mp checks.assigned
  exact assigned_operationTable sound.encoding found isRelevant

omit [Scalar σ] in
theorem scoped_live (sound : e.Sound) {s : Store σ κ} (holds : e.Holds diagramOf base s)
    (checks : Checked σ e query evidence relevant operations) :
    Scoped e.encoding.bitsOf relevant query [] (e.live diagramOf relevant) := by
  have known {name : String} (isRelevant : name ∈ relevant) : name ∈ e.graph.names :=
    mem_names_of_relevant sound checks isRelevant
  refine ⟨fun pair mem => ?_, fun other => ?_⟩
  · obtain ⟨name, isRelevant, t, found, rfl⟩ := mem_live.mp mem
    obtain ⟨-, -, bits⟩ := holds name (known isRelevant) t found
    exact bits.trans (scopeBits_mono fun other there =>
      NameSet.mem_union_ofList.mpr (NameSet.mem_ofList.mp there))
  · simp only [List.not_mem_nil, not_false_eq_true, or_true, and_true]
    constructor
    · rintro ⟨pair, mem, there⟩
      obtain ⟨name, isRelevant, t, found, rfl⟩ := mem_live.mp mem
      obtain ⟨t', found', head, parents⟩ := sound.tabled name (known isRelevant)
      obtain rfl : t' = t := Option.some.inj (found'.symm.trans found)
      rcases List.mem_cons.mp (NameSet.mem_union_ofList.mp there) with same | parent
      · rwa [same, head]
      · rw [mem_relevant sound checks] at isRelevant ⊢
        exact isRelevant.of_parent ((parents other).mp parent)
    · intro isRelevant
      obtain ⟨t, found, head, -⟩ := sound.tabled other (known isRelevant)
      exact ⟨_, mem_live.mpr ⟨other, isRelevant, t, found, rfl⟩,
        NameSet.mem_union_ofList.mpr (List.mem_cons.mpr (.inl head.symm))⟩

/-- Wherever a sweep stops, its factors mention the relevant variables that are queried or were not
handled, and stay within the bits of their scopes. -/
theorem scoped_of_sweeps (sound : e.Sound) {s : Store σ κ} (holds : e.Holds diagramOf base s)
    (checks : Checked σ e query evidence relevant operations) {names : List String}
    {left : List (Live κ)}
    (sweeps : Sweeps V operations query (names.map fun name => (name, e.encoding.bitsOf name))
      (e.live diagramOf relevant) left) :
    Scoped e.encoding.bitsOf relevant query names.reverse left := by
  have tidy := (scoped_live sound holds checks).sweep
    (fun name isRelevant => handles_of_assigned (roles_of_checked sound checks isRelevant).2) sweeps
  rwa [List.append_nil] at tidy

theorem allBits_of_sweeps (sound : e.Sound) {s : Store σ κ} (holds : e.Holds diagramOf base s)
    (checks : Checked σ e query evidence relevant operations) {left : List (Live κ)}
    (sweeps : Sweeps V operations query (e.order.map fun name => (name, e.encoding.bitsOf name))
      (e.live diagramOf relevant) left) :
    allBits left ⊆ scopeBits e.encoding.bitsOf query := by
  refine allBits_subset fun pair mem => ?_
  refine (scoped_of_sweeps V sound holds checks sweeps).scope_subset (fun name isRelevant => ?_) mem
  rw [List.mem_reverse, sound.order.mem_iff]
  exact mem_names_of_relevant sound checks isRelevant

omit [Scalar σ] in
theorem rootShows_of_mem_live (sound : e.Sound) {s : Store σ κ} (holds : e.Holds diagramOf base s)
    (checks : Checked σ e query evidence relevant operations) (pair : Live κ)
    (mem : pair ∈ e.live diagramOf relevant) : s.RootShows pair.1.root pair.2 := by
  obtain ⟨name, isRelevant, t, found, rfl⟩ := mem_live.mp mem
  exact (holds name (mem_names_of_relevant sound checks isRelevant) t found).2.1

structure Answers (e : Engine) (diagramOf : String → Diagram κ) (query relevant : NameSet)
    (operations : BitOperations) (left : List (Live κ)) (d : Diagram κ) (sum : κ)
    (likelihood : σ) (stored : Diagram κ) : Prop where
  sweeps : Sweeps V operations query (e.order.map fun name => (name, e.encoding.bitsOf name))
    (e.live diagramOf relevant) left
  meaning : V.of d = V.productOf (left.map (V.of ·.2))
  bits : stored.bits ⊆ scopeBits e.encoding.bitsOf query
  summed : V.of (.constant sum) =
    (query.toList.flatMap e.encoding.bitsOf).foldl (V.eliminate ∅) (V.of d)
  normalized : Normalized R d sum likelihood stored

/-- What becomes of a request that passes the checks, whatever the engine: it is answered, or a bit
is left that is not queried. Either way only the answer holds a pin. -/
theorem answer_cases (operations : BitOperations) (query : NameSet)
    (shown : ∀ pair ∈ e.live diagramOf relevant, w.store.RootShows pair.1.root pair.2)
    (ledger : w.store.Ledger R base []) :
    ∃ left d, Sweeps V operations query
        (e.order.map fun name => (name, e.encoding.bitsOf name)) (e.live diagramOf relevant) left ∧
      d.bits ⊆ allBits left ∧ V.of d = V.productOf (left.map (V.of ·.2)) ∧
      ((∃ p w' sum stored, (e.answer query relevant operations : InferenceM σ κ (Outcome σ)) w =
          .ok (.posterior p) w' ∧ w'.store.Ledger R base [p.root] ∧
          w'.store.RootShows p.root stored ∧ w.store.Spares base w'.store ∧
          p.query = query.toList ∧ stored.bits ⊆ d.bits ∧
          V.of (.constant sum) =
            (query.toList.flatMap e.encoding.bitsOf).foldl (V.eliminate ∅) (V.of d) ∧
          Normalized R d sum p.likelihood stored) ∨
        ∃ bits w', (e.answer query relevant operations : InferenceM σ κ (Outcome σ)) w =
          .error (.error (.notConstant bits)) w' ∧ w'.store.Ledger R base [] ∧
          w.store.Spares base w'.store ∧
          ((query.toList.flatMap e.encoding.bitsOf).foldl (remaining ∅) d.bits).Nonempty) := by
  obtain ⟨result, d, s₁, left, run₁, ledger₁, shown₁, spares₁, sweeps, bits, means⟩ :=
    combine_spec V operations query (e.order.map fun name => (name, e.encoding.bitsOf name))
      (e.live diagramOf relevant) ledger shown
  let w₁ : Workspace σ κ := { w with store := s₁ }
  have step₁ : onStore (combine operations query
      (e.order.map fun name => (name, e.encoding.bitsOf name))
      ((e.live diagramOf relevant).map Prod.fst)) w = .ok result w₁ := onStore_of_ok run₁
  have ledger₁ : w₁.store.Ledger R base [result] := ledger₁
  obtain ⟨total, sum, w₂, run₂, ledger₂, resultShown, totalShown, spares₂, bits₂, summed⟩ :=
    normalize_sum V (query.toList.flatMap e.encoding.bitsOf) ledger₁ shown₁
  have spared := spares₁.trans spares₂
  refine ⟨left, d, sweeps, bits, means, ?_⟩
  rw [answer, factors_eq_live diagramOf, bind_of_ok step₁]
  cases sum with
  | constant sum =>
    obtain ⟨p, w₃, stored, run₃, ledger₃, shown₃, spares₃, asked, within, normalized⟩ :=
      divide_constant ledger₂ resultShown totalShown
    refine .inl ⟨p, { w₃ with journal := w₃.journal.push (.likelihood p.likelihood) }, sum, stored,
      ?_, ledger₃, shown₃, spared.trans spares₃, asked, within, summed, normalized⟩
    rw [bind_of_ok (run₂.trans run₃), bind_of_ok (record_run _)]
    rfl
  | test place offset scale bit low high =>
    obtain ⟨names, w₃, run₃, ledger₃, spares₃⟩ := divide_test ledger₂ totalShown
    refine .inr ⟨names, w₃, ?_, ledger₃, spared.trans spares₃, bit,
      bits₂ (Finset.mem_insert_self _ _)⟩
    rw [bind_of_error (run₂.trans run₃)]

theorem answer_spec (sound : e.Sound) (holds : e.Holds diagramOf base w.store)
    {held : List Root} (ledger : w.store.Ledger R base held)
    (checks : Checked σ e query evidence relevant operations) :
    ∃ p w' left d sum stored,
      (e.answer query relevant operations : InferenceM σ κ (Outcome σ)) w =
        .ok (.posterior p) w' ∧ w'.store.Ledger R base (p.root :: held) ∧
      w'.store.RootShows p.root stored ∧
      w.store.Spares (fun f => base f + held.count f) w'.store ∧ p.query = query.toList ∧
      Answers V e diagramOf query relevant operations left d sum p.likelihood stored := by
  let others (f : Root) : Nat := base f + held.count f
  have lent : w.store.Ledger R others [] := Ledger.lend ledger
  obtain ⟨left, d, sweeps, bits, means, answers⟩ :=
    answer_cases V operations query (rootShows_of_mem_live sound holds checks) lent
  have within : d.bits ⊆ scopeBits e.encoding.bitsOf query :=
    bits.trans (allBits_of_sweeps V sound holds checks sweeps)
  rcases answers with ⟨p, w', sum, stored, run, ledger', shown', spares, asked, within', summed,
    normalized⟩ | ⟨names, w', -, -, -, bit, stays⟩
  · exact ⟨p, w', left, d, sum, stored, run, ledger'.reclaim, shown', spares, asked,
      ⟨sweeps, means, within'.trans within, summed, normalized⟩⟩
  · obtain ⟨name, queried, owned⟩ :=
      mem_scopeBits.mp (within (remaining_foldl_subset ∅ _ _ stays))
    refine absurd stays (notMem_remaining_foldl (List.mem_flatMap.mpr
      ⟨name, Std.ExtTreeSet.mem_toList.mpr queried, owned⟩) ?_ _)
    rw [Std.ExtTreeMap.getD_empty]
    exact nofun

end Engine

end BayesDiagram
