import BayesDiagram.Inference.Model
import BayesDiagram.Proofs.Diagram.Runs
import BayesDiagram.Proofs.Inference.Compilation
import BayesDiagram.Proofs.Inference.Request
import BayesDiagram.Proofs.Network.Acyclic
import BayesDiagram.Proofs.Network.Dependencies
import BayesDiagram.Proofs.Network.Validation

/-! Loading. A loaded model has the variables with a table, linked as the tables say, and encodes
them one after the other along its order. -/
namespace BayesDiagram

variable {σ : Type}

namespace Network

inductive Built : Network σ → Prop where
  | empty : Built {}
  | declare {n n' : Network σ} {v : Variable} (built : Built n) (run : n.declare v = .ok n') :
      Built n'
  | attach {n : Network σ} (built : Built n) (t : ConditionalTable σ) : Built (n.attach t)

variable {n : Network σ} {name : String} {t : ConditionalTable σ}

theorem Built.head_eq (built : n.Built) (found : n.table? name = some t) : t.head = name := by
  induction built with
  | empty => simp [table?] at found
  | declare _ run ih =>
    rw [Network.declare] at run
    split at run
    · cases run
    · cases run
      exact ih found
  | attach _ t' ih =>
    rw [table?, Network.attach, Std.ExtTreeMap.getElem?_insert] at found
    split at found
    · next same =>
      cases found
      exact Std.LawfulEqOrd.eq_of_compare same
    · exact ih found

theorem Built.heads_sublist (built : n.Built) (names : List String) :
    ((names.filterMap n.table?).map ConditionalTable.head).Sublist names := by
  induction names with
  | nil => exact .slnil
  | cons first names ih =>
    cases here : n.table? first with
    | none =>
      rw [List.filterMap_cons_none here]
      exact ih.cons first
    | some t =>
      rw [List.filterMap_cons_some here, List.map_cons, built.head_eq here]
      exact ih.cons_cons first

end Network

theorem Store.create_ledger [Scalar σ] {κ : Type} [Coefficient σ κ] {config : StoreConfig σ}
    {R : Reading σ κ config} {s : Store σ κ} (new : create config = .ok s) :
    s.Ledger R (fun _ => 0) [] := by
  refine ⟨create_sound new, fun f => ?_⟩
  obtain ⟨nodes, roots, -, -, rfl⟩ := create_cases new
  exact Std.TreeMap.getD_emptyc

namespace Model

open Failure Network

variable {n : Network σ} {order : List String} {name : String}

theorem encodingOf_spec {e : Encoding} (run : encodingOf n order = .ok e) :
    e.Encodes (order.map fun name => (name, n.arityOf name)) := by
  suffices built : ∀ {start : Encoding} {before : List (String × Nat)}, start.Encodes before →
      order.foldlM (fun encoding name => do
        let v ← liftError (n.getVariable name)
        liftFault (encoding.allocate name v.arity)) start = .ok e →
      e.Encodes (before ++ order.map fun name => (name, n.arityOf name)) from
    built Encoding.encodes_empty run
  clear run
  induction order with
  | nil =>
    intro start before encodes run
    cases run
    simpa using encodes
  | cons first order ih =>
    intro start before encodes run
    rw [List.foldlM_cons] at run
    obtain ⟨mid, allocated, run⟩ := BayesDiagram.bind_eq_ok.mp run
    obtain ⟨v, found, allocated⟩ := BayesDiagram.bind_eq_ok.mp allocated
    rw [liftError_eq_ok] at found
    rw [liftFault_eq_ok, ← arityOf_of_getVariable found] at allocated
    simpa using ih (encodes.allocate allocated) run

theorem graphOf_spec (built : n.Built) {g : DependencyGraph} (run : graphOf n = .ok g) :
    g.names.Nodup ∧
      (∀ name ∈ g.names, (∃ v, n.getVariable name = .ok v) ∧ ∃ t, n.table? name = some t) ∧
      g.Closed ∧ ∀ name ∈ g.names, ∀ t, n.table? name = some t →
        ∀ parent, g.IsParent parent name ↔ parent ∈ t.parents := by
  obtain ⟨nodup, mem, closed, links⟩ := dependencies_spec run
  have tabled (name : String) (known : name ∈ g.names) :
      (∃ v, n.getVariable name = .ok v) ∧ ∃ t, n.table? name = some t := by
    rw [mem, List.mem_filter, List.mem_map] at known
    obtain ⟨⟨v, declared, rfl⟩, hasTable⟩ := known
    exact ⟨exists_getVariable declared, _, Std.ExtTreeMap.getElem?_eq_some_getElem
      (Std.ExtTreeMap.contains_iff_mem.mp hasTable)⟩
  refine ⟨nodup, tabled, closed, fun name known t found parent => ?_⟩
  rw [links]
  constructor
  · rintro ⟨t', mem', rfl, isParent⟩
    obtain ⟨other, -, found'⟩ := List.mem_filterMap.mp mem'
    obtain rfl := built.head_eq found'
    obtain rfl : t' = t := Option.some.inj (found'.symm.trans found)
    exact isParent
  · intro isParent
    exact ⟨t, List.mem_filterMap.mpr ⟨name, (mem name).mp known, found⟩, built.head_eq found,
      isParent⟩

variable [Scalar σ] {κ : Type} [Coefficient σ κ]

open InferenceM

theorem load_eq_ok {config : ModelConfig σ} {ordering : DependencyGraph → List String}
    {m : Model σ} {w : Workspace σ κ} (run : load n config ordering = .ok (m, w)) :
    n.validate = .ok () ∧ graphOf n = .ok m.graph ∧
      (m.graph.checkOrder m.order : Except (Error σ) Unit) = .ok () ∧
      encodingOf n m.order = .ok m.encoding ∧ m.network = n ∧ m.config = config ∧
      m.normalization = config.normalization ∧ m.order = ordering m.graph ∧
      (m.encoding.expand m.order : Except (Error σ) (List Bit)) = .ok m.bitOrder ∧
      ∃ (w₀ w₁ : Workspace σ κ) (tables : List CompiledTable),
        Store.create config.store = .ok w₀.store ∧
        (m.graph.names.filterMap n.table?).mapM (Compiler.mk n m.encoding).compile w₀ =
          .ok tables w₁ ∧
        w.store = w₁.store ∧ m.tables = .ofList (tables.map fun t => (t.head, t)) := by
  obtain ⟨_, valid, run⟩ := BayesDiagram.bind_eq_ok.mp run
  obtain ⟨graph, graphed, run⟩ := BayesDiagram.bind_eq_ok.mp run
  obtain ⟨_, ordered, run⟩ := BayesDiagram.bind_eq_ok.mp run
  obtain ⟨encoding, encoded, run⟩ := BayesDiagram.bind_eq_ok.mp run
  obtain ⟨bitOrder, expanded, run⟩ := BayesDiagram.bind_eq_ok.mp run
  obtain ⟨store, created, run⟩ := BayesDiagram.bind_eq_ok.mp run
  rw [liftError_eq_ok] at valid graphed ordered expanded
  rw [liftFault_eq_ok] at created
  dsimp only at run
  split at run
  · cases run
  · next tables w' compiled =>
    cases run
    obtain ⟨_, w₁, made, rest⟩ := InferenceM.bind_eq_ok.mp compiled
    cases rest
    exact ⟨valid, graphed, ordered, encoded, rfl, rfl, rfl, rfl, expanded, ⟨store, _⟩, w₁, tables,
      created, made, rfl, rfl⟩

omit [Coefficient σ κ] in
theorem exists_ranks (built : n.Built) (valid : n.validate = .ok ()) {g : DependencyGraph}
    (graphed : graphOf n = .ok g) : ∃ rank, g.Ranks rank := by
  obtain ⟨-, tabled, closed, links⟩ := graphOf_spec built graphed
  obtain ⟨-, whole, linked, order, sorted⟩ := validate_eq_ok valid
  obtain ⟨-, -, wholeClosed, wholeLinks⟩ := dependencies_spec linked
  refine ⟨order.idxOf, fun parent child isParent =>
    DependencyGraph.ranks_of_toposort wholeClosed sorted parent child ?_⟩
  have known := (closed _ (DependencyGraph.isParent_iff.mp isParent)).2
  obtain ⟨-, t, found⟩ := tabled child known
  refine (wholeLinks parent child).mpr ⟨t, ?_, built.head_eq found,
    (links child known t found parent).mp isParent⟩
  exact List.mem_map.mpr ⟨(child, t), Std.ExtTreeMap.mem_toList_iff_getElem?_eq_some.mpr found, rfl⟩

theorem accepts_of_graphOf (built : n.Built) (valid : n.validate = .ok ()) {g : DependencyGraph}
    (graphed : graphOf n = .ok g) {e : Encoding}
    (encoded : ∀ name ∈ g.names, ∃ b, e.block? name = some b) {t : ConditionalTable σ}
    (mem : t ∈ g.names.filterMap n.table?) : (Compiler.mk n e).Accepts t := by
  obtain ⟨-, tabled, closed, links⟩ := graphOf_spec built graphed
  obtain ⟨head, known, found⟩ := List.mem_filterMap.mp mem
  obtain rfl := built.head_eq found
  have inGraph (name : String) (inScope : name ∈ t.scope) : name ∈ g.names := by
    rcases List.mem_cons.mp inScope with rfl | isParent
    · exact known
    · have link := (links t.head known t found name).mpr isParent
      exact (closed _ (DependencyGraph.isParent_iff.mp link)).1
  exact
    { nodup := (checkTable_eq_ok ((validate_eq_ok valid).1 _ t found)).1
      encoded := fun name inScope => encoded name (inGraph name inScope)
      declared := fun name inScope => (tabled name (inGraph name inScope)).1 }

omit [Scalar σ] in
theorem encodes_of_checkOrder {g : DependencyGraph}
    (ordered : (g.checkOrder order : Except (Error σ) Unit) = .ok ()) {e : Encoding}
    (run : encodingOf n order = .ok e) (known : name ∈ g.names) :
    ∃ b, e.block? name = some b ∧ b.arity = n.arityOf name := by
  rw [← (DependencyGraph.checkOrder_eq_ok.mp ordered).2] at known
  exact (encodingOf_spec run).exists_block? (List.mem_map_of_mem known)

omit [Scalar σ] in
theorem expand_of_checkOrder {g : DependencyGraph}
    (ordered : (g.checkOrder order : Except (Error σ) Unit) = .ok ()) {e : Encoding}
    (run : encodingOf n order = .ok e) :
    (e.expand order : Except (Error σ) (List Bit)) = .ok (order.flatMap e.bitsOf) :=
  Encoding.expand_eq fun name mem => by
    have known := ((DependencyGraph.checkOrder_eq_ok.mp ordered).2 name).mp mem
    exact (encodes_of_checkOrder ordered run known).imp fun _ => And.left

/-! ### Loaded models -/

variable {config : StoreConfig σ} {R : Reading σ κ config} {α : Type} (M : Meaning R α)
  {base : Root → Nat} {s : Store σ κ} {m : Model σ} {diagramOf : String → Diagram κ}

/-- What a loaded model holds: its engine is sound, and every table shows a pinned diagram with the
meaning of the table that it was compiled from. -/
structure Loaded (m : Model σ) (diagramOf : String → Diagram κ) (base : Root → Nat)
    (s : Store σ κ) : Prop where
  valid : m.network.validate = .ok ()
  engine : m.Sound
  ledger : s.Ledger R base []
  holds : m.Holds diagramOf base s
  known : ∀ (name : String) (t : CompiledTable), m.tables[name]? = some t → name ∈ m.graph.names
  arities : ∀ name ∈ m.graph.names, m.encoding.arityOf name = m.network.arityOf name
  means : ∀ name ∈ m.graph.names, ∃ t, m.network.table? name = some t ∧ t.head = name ∧
    (∀ parent, m.graph.IsParent parent name ↔ parent ∈ t.parents) ∧
    M.of (diagramOf name) = Compiler.tableOf M ⟨m.network, m.encoding⟩ t t.strategy

theorem exists_compiled {c : Compiler σ} {names : List String} (nodup : names.Nodup)
    (built : n.Built) {tables : List CompiledTable}
    (all : List.Forall₂ (c.Compiled M s) (names.filterMap n.table?) tables) (mem : name ∈ names)
    {t : ConditionalTable σ} (found : n.table? name = some t) :
    ∃ compiled ∈ tables, c.Compiled M s t compiled ∧
      (Std.ExtTreeMap.ofList (tables.map fun t => (t.head, t)) :
        Std.ExtTreeMap String CompiledTable)[name]? = some compiled := by
  obtain ⟨compiled, inTables, shows⟩ :=
    exists_of_forall₂ all (List.mem_filterMap.mpr ⟨name, mem, found⟩)
  refine ⟨compiled, inTables, shows, ?_⟩
  have distinct : (tables.map CompiledTable.head).Nodup :=
    Compiler.heads_eq all ▸ nodup.sublist (built.heads_sublist names)
  refine Std.ExtTreeMap.getElem?_ofList_of_mem (k := compiled.head) ?_ ?_
    (List.mem_map.mpr ⟨compiled, inTables, rfl⟩)
  · exact Std.LawfulEqOrd.compare_eq_iff_eq.mpr (shows.head.trans (built.head_eq found))
  · rw [List.pairwise_map]
    exact (List.pairwise_map.mp distinct).imp fun differ same =>
      differ (Std.LawfulEqOrd.eq_of_compare same)

theorem loaded_of_load {modelConfig : ModelConfig σ} (sameConfig : modelConfig.store = config)
    {ordering : DependencyGraph → List String} {w : Workspace σ κ} (built : n.Built)
    (run : load n modelConfig ordering = .ok (m, w)) :
    ∃ diagramOf base, m.Loaded M diagramOf base w.store := by
  subst sameConfig
  obtain ⟨valid, graphed, ordered, encoded, rfl, -, -, -, -, w₀, w₁, tables, created, compiled,
    stored, tabulated⟩ := load_eq_ok run
  obtain ⟨nodup, tabled, closed, links⟩ := graphOf_spec built graphed
  obtain ⟨orderNodup, orderNames⟩ := DependencyGraph.checkOrder_eq_ok.mp ordered
  have encodes (name : String) (known : name ∈ m.graph.names) :=
    encodes_of_checkOrder ordered encoded known
  obtain ⟨results, w', run', ledger, -, all⟩ :=
    (Compiler.compileAll_spec M (Store.create_ledger created) ⟨_, encodingOf_spec encoded⟩
      (m.graph.names.filterMap m.network.table?)).resolve_right fun refused => by
        obtain ⟨-, failure, w', failed⟩ := refused
        cases failed.symm.trans compiled
  cases run'.symm.trans compiled
  rw [List.append_nil, ← stored] at ledger
  rw [← stored] at all
  have shows (name : String) : ∃ d, name ∈ m.graph.names → ∃ t compiled,
      m.network.table? name = some t ∧ compiled ∈ tables ∧ m.tables[name]? = some compiled ∧
        compiled.head = t.head ∧ compiled.parents = t.parents ∧ w.store.RootShows compiled.root d ∧
        d.bits ⊆ Compiler.bitsOfScope ⟨m.network, m.encoding⟩ t ∧
        M.of d = Compiler.tableOf M ⟨m.network, m.encoding⟩ t t.strategy := by
    by_cases known : name ∈ m.graph.names
    · obtain ⟨-, t, found⟩ := tabled name known
      obtain ⟨compiled, mem, ⟨head, parents, d, shown, within, means⟩, here⟩ :=
        exists_compiled M nodup built all known found
      exact ⟨d, fun _ => ⟨t, compiled, found, mem, tabulated ▸ here, head, parents, shown, within,
        means⟩⟩
    · exact ⟨.constant 0, fun there => absurd there known⟩
  choose diagramOf shows using shows
  refine ⟨diagramOf, fun f => 0 + (tables.map CompiledTable.root).count f,
    { valid := valid
      engine := {
        encoding := ⟨_, encodingOf_spec encoded⟩
        closed := closed
        order := (List.perm_ext_iff_of_nodup orderNodup nodup).mpr orderNames
        nodup := nodup
        encoded := fun name known => (encodes name known).imp fun _ => And.left
        tabled := fun name known => ?_ }
      ledger := Store.Ledger.lend ledger
      holds := fun name known compiled here => ?_
      known := fun name compiled here => ?_
      arities := fun name known => ?_
      means := fun name known => ?_ }⟩
  · obtain ⟨t, compiled, found, -, here, head, parents, -⟩ := shows name known
    obtain rfl := built.head_eq found
    refine ⟨compiled, here, head, fun parent => ?_⟩
    rw [parents, links _ known t found]
  · obtain ⟨t, other, -, mem, there, head, parents, shown, within, -⟩ := shows name known
    obtain rfl : other = compiled := Option.some.inj (there.symm.trans here)
    have pinned := List.count_pos_iff.mpr (List.mem_map_of_mem (f := CompiledTable.root) mem)
    refine ⟨Nat.lt_add_left 0 pinned, shown, ?_⟩
    rwa [CompiledTable.scope, head, parents]
  · have tabled := (Std.ExtTreeMap.getElem?_eq_some_iff.mp (tabulated ▸ here)).1
    rw [Std.ExtTreeMap.mem_ofList, List.contains_iff_mem, List.map_map] at tabled
    exact (built.heads_sublist _).mem (Compiler.heads_eq all ▸ tabled)
  · obtain ⟨b, found, arity⟩ := encodes name known
    rw [Encoding.arityOf_of_block? found, arity]
  · obtain ⟨t, compiled, found, -, -, -, -, -, -, means⟩ := shows name known
    exact ⟨t, found, built.head_eq found, links name known t found, means⟩

variable {M} in
theorem Loaded.admits (loaded : m.Loaded M diagramOf base s) {query : NameSet} {evidence : Evidence}
    (queried : ∀ name ∈ query, name ∈ m.graph.names ∧ name ∉ evidence)
    (observed : ∀ name value, evidence[name]? = some value →
      name ∈ m.graph.names ∧ value < m.network.arityOf name) : m.Admits query evidence where
  queried name mem := (queried name mem).1
  observed name value seen := by
    obtain ⟨known, below⟩ := observed name value seen
    exact ⟨known, (loaded.arities name known).symm ▸ below⟩
  apart name mem := (queried name mem).2

theorem exists_load {modelConfig : ModelConfig σ} {ordering : DependencyGraph → List String}
    (built : n.Built) (valid : n.validate = .ok ()) {g : DependencyGraph}
    (graphed : graphOf n = .ok g)
    (ordered : (g.checkOrder (ordering g) : Except (Error σ) Unit) = .ok ()) {e : Encoding}
    (encoded : encodingOf n (ordering g) = .ok e)
    (created : (Store.create modelConfig.store : Except Fault (Store σ κ)) = .ok s) :
    ∃ m w, (load n modelConfig ordering : Except (Failure σ) (Model σ × Workspace σ κ)) =
      .ok (m, w) := by
  have encodes (name : String) (known : name ∈ g.names) :=
    encodes_of_checkOrder ordered encoded known
  have expanded := expand_of_checkOrder ordered encoded
  have compiles (journal : Array (Event σ)) : ∃ tables w,
      (g.names.filterMap n.table?).mapM (Compiler.mk n e).compile (⟨s, journal⟩ : Workspace σ κ) =
        .ok tables w := by
    obtain ⟨tables, w, compiled, -⟩ :=
      (Compiler.compileAll_spec (Meaning.blank (Reading.plain modelConfig.store))
        (w := ⟨s, journal⟩) (c := ⟨n, e⟩) (Store.create_ledger created)
        ⟨_, encodingOf_spec encoded⟩ (g.names.filterMap n.table?)).resolve_right fun refused => by
          obtain ⟨⟨t, mem, unfit⟩, -⟩ := refused
          exact unfit (accepts_of_graphOf built valid graphed
            (fun name known => (encodes name known).imp fun _ => And.left) mem)
    exact ⟨tables, w, compiled⟩
  obtain ⟨tables, w, compiled⟩ := compiles
    (((n.declared.map Variable.name).filter (!n.tables.contains ·)).map Event.dropped ++
      [Event.ordered (ordering g)]).toArray
  rw [load, bind_of_eq_ok (liftError_eq_ok.mpr valid), bind_of_eq_ok (liftError_eq_ok.mpr graphed)]
  dsimp only
  rw [bind_of_eq_ok (liftError_eq_ok.mpr ordered), bind_of_eq_ok encoded,
    bind_of_eq_ok (liftError_eq_ok.mpr expanded), bind_of_eq_ok (liftFault_eq_ok.mpr created),
    bind_of_ok compiled]
  exact ⟨_, _, rfl⟩

end Model

/-! ### Rain and a sprinkler -/

namespace ConditionalTable

def rain : ConditionalTable Rat where
  head := "Rain"
  parents := []
  entries := .ofList [([0], (1 / 5 : Rat)), ([1], 4 / 5)]
  tag := none

def sprinkler : ConditionalTable Rat where
  head := "Sprinkler"
  parents := ["Rain"]
  entries := .ofList
    [([0, 0], (1 / 100 : Rat)), ([0, 1], 2 / 5), ([1, 0], 99 / 100), ([1, 1], 3 / 5)]
  tag := none

end ConditionalTable

namespace Network

def sprinkler : Network Rat :=
  let declared : Network Rat :=
    { declared := [⟨"Rain", ["yes", "no"]⟩, ⟨"Sprinkler", ["on", "off"]⟩] }
  (declared.attach .rain).attach .sprinkler

theorem built_sprinkler : sprinkler.Built := by
  have rain : Built ({ declared := [⟨"Rain", ["yes", "no"]⟩] } : Network Rat) :=
    .declare (v := ⟨"Rain", ["yes", "no"]⟩) .empty rfl
  exact ((rain.declare (v := ⟨"Sprinkler", ["on", "off"]⟩) rfl).attach .rain).attach .sprinkler

theorem validate_sprinkler : sprinkler.validate = .ok () :=
  eq_ok_of_isOk (by decide +kernel)

end Network

theorem Model.exists_load_sprinkler : ∃ (m : Model Rat) (w : Workspace Rat Rat),
    load .sprinkler ⟨.exact, .scalar⟩ (DependencyGraph.completedOrder []) = .ok (m, w) := by
  obtain ⟨e, encoded⟩ : ∃ e, encodingOf .sprinkler ["Rain", "Sprinkler"] = .ok e := ⟨_, rfl⟩
  exact exists_load (g := ⟨["Rain", "Sprinkler"], [("Rain", "Sprinkler")]⟩) (s := Store.exact)
    Network.built_sprinkler Network.validate_sprinkler rfl rfl encoded rfl

theorem Model.asks_sprinkler {m : Model Rat} {w : Workspace Rat Rat}
    (loads : load .sprinkler ⟨.exact, .scalar⟩ (DependencyGraph.completedOrder []) = .ok (m, w)) :
    let evidence : Evidence := (∅ : Evidence).insert "Sprinkler" 0
    (∀ name ∈ (.ofList ["Rain"] : NameSet), name ∈ m.graph.names ∧ name ∉ evidence) ∧
      ∀ name value, evidence[name]? = some value →
        name ∈ m.graph.names ∧ value < m.network.arityOf name := by
  obtain ⟨-, graphed, -, -, network, -⟩ := load_eq_ok loads
  have names : m.graph.names = ["Rain", "Sprinkler"] :=
    congrArg DependencyGraph.names (Except.ok.inj graphed).symm
  rw [names, network]
  refine ⟨fun name mem => ?_, fun name value seen => ?_⟩
  · obtain rfl := List.mem_singleton.mp (NameSet.mem_ofList.mp mem)
    decide +kernel
  · rw [Std.ExtTreeMap.getElem?_insert] at seen
    split at seen
    · next same =>
      cases seen
      obtain rfl := Std.LawfulEqOrd.eq_of_compare same
      decide +kernel
    · cases seen

end BayesDiagram
