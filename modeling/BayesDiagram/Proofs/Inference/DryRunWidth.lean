import BayesDiagram.Proofs.Inference.DryRun
import BayesDiagram.Proofs.Network.InducedWidth

/-! The cost of a dry run is an induced width. Two variables stand together when some scope has both
of them. At first that links the moral graph of the relevant variables, and a step of the dry run
does to it what the elimination of a vertex does to the graph; so the scope that is gathered for a
variable consists of the variable and its neighbours. The scopes of the tables are cliques, which no
order can keep from being counted. -/
namespace BayesDiagram

theorem Factor.largestScope_le {scopes : List NameSet} {bound : Nat}
    (below : ∀ scope ∈ scopes, scope.size ≤ bound) : largestScope scopes ≤ bound := by
  suffices folded : ∀ largest ≤ bound,
      scopes.foldl (fun largest scope => max largest scope.size) largest ≤ bound from
    folded 0 (Nat.zero_le _)
  induction scopes with
  | nil => exact fun largest start => start
  | cons first scopes ih =>
    rw [List.forall_mem_cons] at below
    exact fun largest start => ih below.2 _ (Nat.max_le.mpr ⟨start, below.1⟩)

namespace Engine

def Together (scopes : List NameSet) (a b : String) : Prop :=
  ∃ scope ∈ scopes, a ∈ scope ∧ b ∈ scope

def gathered (scopes : List NameSet) (name : String) : NameSet :=
  NameSet.union (scopes.filter (·.contains name))

variable {scopes : List NameSet} {query relevant : NameSet} {a b name : String}

theorem Together.symm (together : Together scopes a b) : Together scopes b a := by
  obtain ⟨scope, mem, first, second⟩ := together
  exact ⟨scope, mem, second, first⟩

theorem mem_gathered : a ∈ gathered scopes name ↔ Together scopes name a := by
  simp only [gathered, NameSet.mem_union, List.mem_filter, Std.ExtTreeSet.contains_iff_mem,
    and_assoc, Together]

def leftScope (query : NameSet) (scopes : List NameSet) (name : String) : NameSet :=
  if query.contains name then gathered scopes name else (gathered scopes name).erase name

theorem mem_leftScope : a ∈ leftScope query scopes name ↔
    Together scopes name a ∧ (name ∈ query ∨ a ≠ name) := by
  rw [leftScope]
  split
  · next queried =>
    rw [mem_gathered, and_iff_left (.inl (Std.ExtTreeSet.contains_iff_mem.mp queried))]
  · next unqueried =>
    rw [Std.ExtTreeSet.contains_iff_mem] at unqueried
    rw [NameSet.mem_erase, mem_gathered, or_iff_right unqueried, and_comm]

def handled (query : NameSet) (scopes : List NameSet) (name : String) : List NameSet :=
  scopes.filter (fun scope => !scope.contains name) ++ [leftScope query scopes name]

theorem mem_handled {scope : NameSet} : scope ∈ handled query scopes name ↔
    (scope ∈ scopes ∧ name ∉ scope) ∨ scope = leftScope query scopes name := by
  rw [handled, List.mem_append, List.mem_filter, List.mem_singleton, Bool.not_eq_true',
    ← Bool.not_eq_true, Std.ExtTreeSet.contains_iff_mem]

theorem estimateVariable_of_unmentioned (unmentioned : ¬Together scopes name name) (largest : Nat) :
    estimateVariable query (scopes, largest) name = (scopes, largest) := by
  have absent (scope : NameSet) (mem : scope ∈ scopes) : scope.contains name = false :=
    Bool.eq_false_iff.mpr fun here => unmentioned ⟨scope, mem,
      Std.ExtTreeSet.contains_iff_mem.mp here, Std.ExtTreeSet.contains_iff_mem.mp here⟩
  have bucket : scopes.filter (·.contains name) = [] :=
    List.filter_eq_nil_iff.mpr fun scope mem => Bool.eq_false_iff.mp (absent scope mem)
  have others : scopes.filter (not ∘ fun scope => scope.contains name) = scopes :=
    List.filter_eq_self.mpr fun scope mem => by rw [Function.comp_apply, absent scope mem]; rfl
  rw [estimateVariable, List.partition_eq_filter_filter, bucket, others]
  rfl

theorem estimateVariable_of_mentioned (mentioned : Together scopes name name) (largest : Nat) :
    estimateVariable query (scopes, largest) name =
      (handled query scopes name, max largest (gathered scopes name).size) := by
  obtain ⟨scope, mem, here, -⟩ := mentioned
  have bucket : scopes.filter (·.contains name) ≠ [] :=
    List.ne_nil_of_mem (List.mem_filter.mpr ⟨mem, Std.ExtTreeSet.contains_iff_mem.mpr here⟩)
  rw [estimateVariable, List.partition_eq_filter_filter]
  exact if_neg (mt List.isEmpty_iff.mp bucket)

/-- Handling a name brings together what stands together with it, and takes the name itself out
unless it is queried. -/
theorem together_handled : Together (handled query scopes name) a b ↔
    (Together scopes a b ∨ Together scopes name a ∧ Together scopes name b) ∧
      (name ∈ query ∨ a ≠ name ∧ b ≠ name) := by
  constructor
  · rintro ⟨scope, mem, first, second⟩
    rcases mem_handled.mp mem with ⟨old, absent⟩ | rfl
    · exact ⟨.inl ⟨scope, old, first, second⟩, .inr
        ⟨fun same => absent (same ▸ first), fun same => absent (same ▸ second)⟩⟩
    · obtain ⟨nearFirst, keepsFirst⟩ := mem_leftScope.mp first
      obtain ⟨nearSecond, keepsSecond⟩ := mem_leftScope.mp second
      refine ⟨.inr ⟨nearFirst, nearSecond⟩, ?_⟩
      rw [or_and_left]
      exact ⟨keepsFirst, keepsSecond⟩
  · rintro ⟨together, keeps⟩
    rw [or_and_left] at keeps
    have joined (near : Together scopes name a ∧ Together scopes name b) :
        Together (handled query scopes name) a b :=
      ⟨_, mem_handled.mpr (.inr rfl), mem_leftScope.mpr ⟨near.1, keeps.1⟩,
        mem_leftScope.mpr ⟨near.2, keeps.2⟩⟩
    rcases together with ⟨scope, mem, first, second⟩ | near
    · by_cases here : name ∈ scope
      · exact joined ⟨⟨scope, mem, here, first⟩, ⟨scope, mem, here, second⟩⟩
      · exact ⟨scope, mem_handled.mpr (.inl ⟨mem, here⟩), first, second⟩
    · exact joined near

/-! ### The graph of the scopes -/

variable {G : SimpleGraph String}

def Links (scopes : List NameSet) (G : SimpleGraph String) : Prop :=
  ∀ a b, G.Adj a b ↔ a ≠ b ∧ Together scopes a b

theorem Links.eliminate (links : Links scopes G) :
    Links (handled query scopes name) (eliminate query G name) := by
  intro a b
  rw [eliminate_adj, together_handled, links, links, links]
  refine .trans (and_congr_left fun _ => ⟨?_, ?_⟩) and_assoc
  · rintro (⟨differ, together⟩ | ⟨differ, ⟨-, first⟩, -, second⟩)
    · exact ⟨differ, .inl together⟩
    · exact ⟨differ, .inr ⟨first, second⟩⟩
  · rintro ⟨differ, together | ⟨first, second⟩⟩
    · exact .inl ⟨differ, together⟩
    · by_cases isFirst : name = a
      · exact .inl ⟨differ, isFirst ▸ second⟩
      by_cases isSecond : name = b
      · exact .inl ⟨differ, (isSecond ▸ first).symm⟩
      exact .inr ⟨differ, ⟨isFirst, first⟩, isSecond, second⟩

theorem Links.size_gathered (links : Links scopes G) (mentioned : Together scopes name name) :
    (gathered scopes name).size = (insert name (G.neighborSet name)).ncard := by
  rw [← NameSet.ncard_eq_size]
  congr 1
  ext a
  rw [Set.mem_ofPred_eq, mem_gathered, Set.mem_insert_iff, SimpleGraph.mem_neighborSet, links]
  constructor
  · intro together
    by_cases same : a = name
    · exact .inl same
    · exact .inr ⟨Ne.symm same, together⟩
  · rintro (rfl | ⟨-, together⟩)
    · exact mentioned
    · exact together

theorem estimate_eq_inducedWidth {order : List String} (nodup : order.Nodup)
    (links : Links scopes G)
    (mentioned : ∀ name ∈ order, Together scopes name name ↔ name ∈ relevant) (largest : Nat) :
    (order.foldl (estimateVariable query) (scopes, largest)).2 =
      max largest (inducedWidth query (order.filter relevant.contains) G) := by
  -- the scopes go on linking the graph: a step does to them what an elimination does to it
  induction order generalizing scopes G largest with
  | nil => exact (Nat.max_zero largest).symm
  | cons first order ih =>
    obtain ⟨fresh, nodup⟩ := List.nodup_cons.mp nodup
    rw [List.forall_mem_cons] at mentioned
    by_cases isRelevant : first ∈ relevant
    · have here := mentioned.1.mpr isRelevant
      have later (name : String) (mem : name ∈ order) :
          Together (handled query scopes first) name name ↔ name ∈ relevant := by
        have other : name ≠ first := fun same => fresh (same ▸ mem)
        rw [together_handled, ← mentioned.2 name mem, and_self, and_self,
          and_iff_left (.inr other)]
        refine or_iff_left_of_imp ?_
        rintro ⟨scope, inScopes, -, there⟩
        exact ⟨scope, inScopes, there, there⟩
      rw [List.foldl_cons, estimateVariable_of_mentioned here,
        ih nodup links.eliminate later,
        List.filter_cons_of_pos (Std.ExtTreeSet.contains_iff_mem.mpr isRelevant), inducedWidth,
        links.size_gathered here, Nat.max_assoc]
    · rw [List.foldl_cons, estimateVariable_of_unmentioned (mt mentioned.1.mp isRelevant),
        ih nodup links mentioned.2,
        List.filter_cons_of_neg (mt Std.ExtTreeSet.contains_iff_mem.mp isRelevant)]

/-! ### The moral graph -/

variable {σ : Type} {e : Engine} {evidence : Evidence} {operations : BitOperations}

theorem together_scopesOf (sound : e.Sound) (known : ∀ name ∈ relevant, name ∈ e.graph.names) :
    Together (scopesOf (e.tablesOf relevant)) a b ↔ ∃ child ∈ relevant,
      (a = child ∨ e.graph.IsParent a child) ∧ (b = child ∨ e.graph.IsParent b child) := by
  have family {child : String} (mem : child ∈ relevant) : ∃ t, e.tables[child]? = some t ∧
      ∀ name, name ∈ NameSet.union [.ofList t.scope] ↔
        name = child ∨ e.graph.IsParent name child := by
    obtain ⟨t, found, head, parents⟩ := sound.tabled child (known child mem)
    refine ⟨t, found, fun name => ?_⟩
    rw [NameSet.mem_union_ofList, CompiledTable.scope, List.mem_cons, head, parents]
  constructor
  · rintro ⟨scope, mem, first, second⟩
    obtain ⟨t, inTables, rfl⟩ := List.mem_map.mp mem
    obtain ⟨child, isRelevant, found⟩ := List.mem_filterMap.mp inTables
    rw [Std.ExtTreeSet.mem_toList] at isRelevant
    obtain ⟨t', found', members⟩ := family isRelevant
    obtain rfl : t' = t := Option.some.inj (found'.symm.trans found)
    exact ⟨child, isRelevant, (members a).mp first, (members b).mp second⟩
  · rintro ⟨child, isRelevant, first, second⟩
    obtain ⟨t, found, members⟩ := family isRelevant
    refine ⟨_, List.mem_map_of_mem (List.mem_filterMap.mpr ⟨child, ?_, found⟩),
      (members a).mpr first, (members b).mpr second⟩
    exact Std.ExtTreeSet.mem_toList.mpr isRelevant

theorem links_scopesOf (sound : e.Sound) (known : ∀ name ∈ relevant, name ∈ e.graph.names)
    (upward : ∀ parent child, child ∈ relevant → e.graph.IsParent parent child →
      parent ∈ relevant) :
    Links (scopesOf (e.tablesOf relevant)) (e.graph.moralWithin relevant) := by
  intro a b
  rw [together_scopesOf sound known]
  refine and_congr_right fun differ => ⟨?_, ?_⟩
  · rintro ⟨first, second, parent | child | ⟨common, mem, left, right⟩⟩
    · exact ⟨b, second, .inr parent, .inl rfl⟩
    · exact ⟨a, first, .inl rfl, .inr child⟩
    · exact ⟨common, mem, .inr left, .inr right⟩
  · rintro ⟨child, mem, rfl | left, rfl | right⟩
    · exact absurd rfl differ
    · exact ⟨mem, upward _ _ mem right, .inr (.inl right)⟩
    · exact ⟨upward _ _ mem left, mem, .inl left⟩
    · exact ⟨upward _ _ mem left, upward _ _ mem right, .inr (.inr ⟨child, mem, left, right⟩)⟩

theorem finite_neighborSet_moralWithin (g : DependencyGraph) (names : NameSet) (a : String) :
    ((g.moralWithin names).neighborSet a).Finite := by
  refine (names.toList.finite_toSet).subset fun b adjacent => ?_
  exact Std.ExtTreeSet.mem_toList.mpr adjacent.2.2.1

theorem estimateCost_eq_inducedWidth (sound : e.Sound)
    (checks : Checked σ e query evidence relevant operations) :
    e.estimateCost (scopesOf (e.tablesOf relevant)) query =
      inducedWidth query (e.order.filter relevant.contains) (e.graph.moralWithin relevant) := by
  have known (name : String) (mem : name ∈ relevant) : name ∈ e.graph.names :=
    mem_names_of_relevant sound checks mem
  have upward (parent child : String) (mem : child ∈ relevant)
      (isParent : e.graph.IsParent parent child) : parent ∈ relevant :=
    (mem_relevant sound checks).mpr (((mem_relevant sound checks).mp mem).of_parent isParent)
  have links := links_scopesOf sound known upward
  have mentioned (name : String) :
      Together (scopesOf (e.tablesOf relevant)) name name ↔ name ∈ relevant := by
    rw [together_scopesOf sound known]
    constructor
    · rintro ⟨child, mem, rfl | isParent, -⟩
      · exact mem
      · exact upward name child mem isParent
    · exact fun mem => ⟨name, mem, .inl rfl, .inl rfl⟩
  -- every scope that the run starts from is a clique
  have start : Factor.largestScope (scopesOf (e.tablesOf relevant)) ≤
      inducedWidth query (e.order.filter relevant.contains) (e.graph.moralWithin relevant) := by
    refine Factor.largestScope_le fun scope mem => ?_
    rw [← NameSet.ncard_eq_size]
    refine ncard_le_inducedWidth (finite_neighborSet_moralWithin _ _) ?_ fun name there => ?_
    · exact fun a first b second differ => (links a b).mpr ⟨differ, scope, mem, first, second⟩
    · have isRelevant := (mentioned name).mp ⟨scope, mem, there, there⟩
      exact List.mem_filter.mpr ⟨sound.order.mem_iff.mpr (known name isRelevant),
        Std.ExtTreeSet.contains_iff_mem.mpr isRelevant⟩
  rw [estimateCost, estimate_eq_inducedWidth (sound.order.nodup_iff.mpr sound.nodup) links
    fun name _ => mentioned name, Nat.max_eq_right start]

end Engine

namespace Model

variable {σ κ : Type} [Scalar σ] [Coefficient σ κ] {n : Network σ} {modelConfig : ModelConfig σ}
  {ordering : DependencyGraph → List String} {m : Model σ} {start : Workspace σ κ}

/-- The cost that a loaded model returns for a request that it admits is the induced width of its
order on the moral graph of the queried and the observed variables with all their ancestors, where
queried variables are kept. -/
theorem dry_run_cost (built : n.Built) (loads : load n modelConfig ordering = .ok (m, start))
    (w : Workspace σ κ) (query : NameSet) (evidence : Evidence)
    (queried : ∀ name ∈ query, name ∈ m.graph.names ∧ name ∉ evidence)
    (observed : ∀ name value, evidence[name]? = some value →
      name ∈ m.graph.names ∧ value < n.arityOf name) :
    ∃ (relevant : NameSet) (w' : Workspace σ κ),
      let cost :=
        inducedWidth query (m.order.filter relevant.contains) (m.graph.moralWithin relevant)
      (∀ name, name ∈ relevant ↔ m.graph.Above (query.toList ++ evidence.keys) name) ∧
      m.run query evidence false w = .ok (.cost cost) w' ∧
      ∀ names given, Std.ExtTreeSet.ofList names = query → n.resolve given = .ok evidence →
        m.query names given false w = .ok (.cost cost) w' := by
  obtain ⟨diagramOf, base, loaded⟩ :=
    loaded_of_load (Meaning.blank (Reading.plain modelConfig.store)) rfl built loads
  obtain ⟨-, -, -, -, rfl, -⟩ := load_eq_ok loads
  obtain ⟨relevant, operations, checks⟩ := (loaded.admits queried observed).checked loaded.engine
  have run := Engine.run_of_estimated (κ := κ) (w := w) checks
  rw [Engine.estimateCost_eq_inducedWidth loaded.engine checks] at run
  refine ⟨relevant, _, fun name => Engine.mem_relevant loaded.engine checks, run, ?_⟩
  intro names given same resolved
  rw [query_eq, resolved, same]
  exact run

theorem dry_run_cost_sprinkler :
    ∃ (m : Model Rat) (start w : Workspace Rat Rat) (relevant : NameSet),
      load .sprinkler ⟨.exact, .scalar⟩ (DependencyGraph.completedOrder []) = .ok (m, start) ∧
      (∀ name, name ∈ relevant ↔ m.graph.Above ["Rain", "Sprinkler"] name) ∧
      m.query ["Rain"] [("Sprinkler", "on")] false start = .ok (.cost
        (inducedWidth (.ofList ["Rain"]) (m.order.filter relevant.contains)
          (m.graph.moralWithin relevant))) w := by
  obtain ⟨m, start, loads⟩ := exists_load_sprinkler
  obtain ⟨queried, observed⟩ := asks_sprinkler loads
  obtain ⟨-, -, -, -, network, -⟩ := load_eq_ok loads
  obtain ⟨relevant, w, isRelevant, -, asked⟩ := dry_run_cost Network.built_sprinkler loads start
    _ _ queried (network ▸ observed)
  exact ⟨m, start, w, relevant, loads, isRelevant, asked ["Rain"] [("Sprinkler", "on")] rfl rfl⟩

end Model

end BayesDiagram
