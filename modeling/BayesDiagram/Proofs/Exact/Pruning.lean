import BayesDiagram.Proofs.Exact.Sessions

/-! Irrelevant variables. A variable whose table sums to one, and whose value no other table looks
at, drops out of a sum of products. Taking the children first, all variables that are neither
queried nor observed nor above such a variable drop out, so the relevant tables alone give the
probabilities of the whole network. -/
namespace BayesDiagram

variable {g : DependencyGraph} {arity : String → Nat} {factor : String → Choice → Rat}
  {rank : String → Nat} {kept free dropped : List String} {v : Choice}

def DependencyGraph.Carries (g : DependencyGraph) (factor : String → Choice → Rat) : Prop :=
  ∀ name ∈ g.names, ∀ u v : Choice, u name = v name →
    (∀ parent, g.IsParent parent name → u parent = v parent) → factor name u = factor name v

/-- Factors that sum to one over the values of their variable, at all values of the parents. -/
def DependencyGraph.Stochastic (g : DependencyGraph) (arity : String → Nat)
    (factor : String → Choice → Rat) : Prop :=
  ∀ name ∈ g.names, ∀ v : Choice, (∀ parent, g.IsParent parent name → v parent < arity parent) →
    ∑ value ∈ Finset.range (arity name), factor name (Function.update v name value) = 1

theorem sum_drop {first : String} {rest : List String} {u : Choice} (carries : g.Carries factor)
    (known : ∀ name ∈ rest, name ∈ g.names) (fresh : first ∉ rest)
    (unseen : ∀ name ∈ rest, ¬g.IsParent first name)
    (one : ∑ value ∈ Finset.range (arity first),
      factor first (Function.update u first value) = 1) :
    ∑ value ∈ Finset.range (arity first),
      ((first :: rest).map (factor · (Function.update u first value))).prod =
        (rest.map (factor · u)).prod := by
  have untouched (value : Nat) :
      (rest.map (factor · (Function.update u first value))).prod = (rest.map (factor · u)).prod := by
    refine congrArg List.prod (List.map_congr_left fun name mem => ?_)
    refine carries name (known name mem) _ _ ?_ fun parent isParent => ?_
    · exact Function.update_of_ne (fun same : name = first => fresh (same ▸ mem)) _ _
    · exact Function.update_of_ne
        (fun same : parent = first => unseen name mem (same ▸ isParent)) _ _
  simp only [List.map_cons, List.prod_cons, untouched]
  rw [← Finset.sum_mul, one, one_mul]

theorem sumOver_drop (ranks : g.Ranks rank) (carries : g.Carries factor)
    (stochastic : g.Stochastic arity factor) (known : ∀ name ∈ dropped ++ kept, name ∈ g.names)
    (nodup : (dropped ++ kept).Nodup) (within : free ⊆ kept)
    (upward : ∀ name ∈ kept, ∀ parent, g.IsParent parent name → parent ∈ kept)
    (parents : ∀ name ∈ dropped, ∀ parent, g.IsParent parent name → parent ∈ dropped ++ kept)
    (sorted : dropped.Pairwise fun first later => rank later ≤ rank first)
    (below : ∀ name ∈ kept, name ∉ free → v name < arity name) :
    sumOver arity (dropped ++ free) (fun u => ((dropped ++ kept).map (factor · u)).prod) v =
      sumOver arity free (fun u => (kept.map (factor · u)).prod) v := by
  induction dropped with
  | nil => rfl
  | cons first dropped ih =>
    rw [List.cons_append, List.nodup_cons] at nodup
    obtain ⟨fresh, nodup⟩ := nodup
    obtain ⟨last, sorted⟩ := List.pairwise_cons.mp sorted
    have unseen (name : String) (mem : name ∈ dropped ++ kept) : ¬g.IsParent first name := by
      intro isParent
      rcases List.mem_append.mp mem with inDropped | inKept
      · exact absurd (ranks first name isParent) (Nat.not_lt.mpr (last name inDropped))
      · exact fresh (List.mem_append_right _ (upward name inKept first isParent))
    have outside : first ∉ dropped ++ free := fun mem => by
      rcases List.mem_append.mp mem with inDropped | inFree
      · exact fresh (List.mem_append_left _ inDropped)
      · exact fresh (List.mem_append_right _ (within inFree))
    have parents' (name : String) (mem : name ∈ dropped) (parent : String)
        (isParent : g.IsParent parent name) : parent ∈ dropped ++ kept := by
      refine (List.mem_cons.mp (parents name (.tail first mem) parent isParent)).resolve_left ?_
      rintro rfl
      exact unseen name (List.mem_append_left _ mem) isParent
    have known' (name : String) (mem : name ∈ dropped ++ kept) := known name (.tail first mem)
    rw [← ih known' nodup parents' sorted, List.cons_append, ← sumOver_cons_of_notMem outside]
    refine sumOver_congr fun u reached => sum_drop carries known' fresh unseen ?_
    -- the parents of the variable are still in the sum or fixed below their arities
    refine stochastic first (known first (.head _)) u fun parent isParent => ?_
    have other : parent ≠ first := fun same => by
      subst same
      exact Nat.lt_irrefl _ (ranks parent parent isParent)
    have held := (List.mem_cons.mp (parents first (.head _) parent isParent)).resolve_left other
    by_cases mem : parent ∈ dropped ++ free
    · exact reached.below parent mem
    · rw [reached.others parent mem]
      rw [List.mem_append, not_or] at mem
      exact below parent ((List.mem_append.mp held).resolve_left mem.1) mem.2

theorem exists_dropped (rank : String → Nat) (nodup : g.names.Nodup) {relevant : NameSet}
    (known : ∀ name ∈ relevant, name ∈ g.names) :
    ∃ dropped, g.names.Perm (dropped ++ relevant.toList) ∧ (∀ name ∈ dropped, name ∉ relevant) ∧
      dropped.Pairwise fun first later => rank later ≤ rank first := by
  let dropped := (g.names.filter (!relevant.contains ·)).mergeSort
    fun first later => decide (rank later ≤ rank first)
  have mem_dropped (name : String) : name ∈ dropped ↔ name ∈ g.names ∧ name ∉ relevant := by
    rw [(List.mergeSort_perm _ _).mem_iff, List.mem_filter, Bool.not_eq_true',
      ← Bool.not_eq_true, Std.ExtTreeSet.contains_iff_mem]
  have fresh : (dropped ++ relevant.toList).Nodup := by
    refine List.nodup_append.mpr ⟨?_, NameSet.nodup_toList relevant, fun name mem other mem' => ?_⟩
    · exact (List.mergeSort_perm _ _).nodup_iff.mpr (nodup.filter _)
    · rintro rfl
      exact ((mem_dropped name).mp mem).2 (Std.ExtTreeSet.mem_toList.mp mem')
  refine ⟨dropped, (List.perm_ext_iff_of_nodup nodup fresh).mpr fun name => ?_,
    fun name mem => ((mem_dropped name).mp mem).2, ?_⟩
  · rw [List.mem_append, mem_dropped, Std.ExtTreeSet.mem_toList]
    exact ⟨fun mem => (em (name ∈ relevant)).elim .inr fun irrelevant => .inl ⟨mem, irrelevant⟩,
      fun either => either.elim And.left (known name)⟩
  · refine (List.pairwise_mergeSort (fun a b c first second => ?_) (fun a b => ?_) _).imp
      of_decide_eq_true
    · exact decide_eq_true ((of_decide_eq_true second).trans (of_decide_eq_true first))
    · rcases Nat.le_total (rank b) (rank a) with le | ge
      · simp [le]
      · simp [ge]

/-- Only the variables of a set that holds all their parents matter for a sum over the rest, when
the fixed values belong to the set. -/
theorem sumOver_relevant (ranks : g.Ranks rank) (closed : g.Closed) (nodup : g.names.Nodup)
    (carries : g.Carries factor) (stochastic : g.Stochastic arity factor) {relevant : NameSet}
    (known : ∀ name ∈ relevant, name ∈ g.names)
    (upward : ∀ name ∈ relevant, ∀ parent, g.IsParent parent name → parent ∈ relevant)
    {fixed : String → Bool} (inside : ∀ name, fixed name = true → name ∈ relevant)
    (below : ∀ name, fixed name = true → v name < arity name) :
    sumOver arity (g.names.filter (!fixed ·)) (fun u => (g.names.map (factor · u)).prod) v =
      sumOver arity (relevant.toList.filter (!fixed ·))
        (fun u => (relevant.toList.map (factor · u)).prod) v := by
  obtain ⟨dropped, perm, irrelevant, sorted⟩ := exists_dropped rank nodup known
  have freePerm : (g.names.filter (!fixed ·)).Perm
      (dropped ++ relevant.toList.filter (!fixed ·)) := by
    refine (perm.filter _).trans (.of_eq ?_)
    rw [List.filter_append, List.filter_eq_self.mpr fun name mem => ?_]
    rw [Bool.not_eq_true', ← Bool.not_eq_true]
    exact fun isFixed => irrelevant name mem (inside name isFixed)
  calc sumOver arity (g.names.filter (!fixed ·)) (fun u => (g.names.map (factor · u)).prod) v
    _ = sumOver arity (dropped ++ relevant.toList.filter (!fixed ·))
          (fun u => ((dropped ++ relevant.toList).map (factor · u)).prod) v := by
      rw [sumOver_perm freePerm]
      exact sumOver_congr fun u _ => (perm.map _).prod_eq
    _ = _ := by
      refine sumOver_drop ranks carries stochastic (fun name => perm.mem_iff.mpr)
        (perm.nodup_iff.mp nodup) (fun _ => List.mem_of_mem_filter)
        (fun name mem parent isParent => ?_) (fun name _ parent isParent => ?_) sorted
        fun name mem notFree => ?_
      · rw [Std.ExtTreeSet.mem_toList] at mem ⊢
        exact upward name mem parent isParent
      · exact perm.mem_iff.mp (closed _ (DependencyGraph.isParent_iff.mp isParent)).1
      · refine below name ?_
        by_contra isFree
        exact notFree (List.mem_filter.mpr ⟨mem, by simpa using isFree⟩)

namespace Evidence

variable {evidence : Evidence} {query relevant : NameSet}

theorem observe_update {name : String} (free : evidence[name]? = none) (v : Choice) (value : Nat) :
    evidence.observe (Function.update v name value) =
      Function.update (evidence.observe v) name value := by
  funext other
  by_cases same : other = name
  · subst same
    rw [observe_of_none free, Function.update_self, Function.update_self]
  · rw [Function.update_of_ne same, observe, observe, Function.update_of_ne same]

theorem sumOver_observe {bound : String → Nat} {names : List String} {f : Choice → Rat}
    (free : ∀ name ∈ names, evidence[name]? = none) (v : Choice) :
    sumOver bound names (fun u => f (evidence.observe u)) v =
      sumOver bound names f (evidence.observe v) := by
  induction names generalizing v with
  | nil => rfl
  | cons name names ih =>
    refine Finset.sum_congr rfl fun value _ => ?_
    rw [ih (fun other mem => free other (.tail name mem)), observe_update (free name (.head names))]

theorem mass_eq (queried : ∀ name ∈ query, name ∈ relevant ∧ name ∉ evidence) :
    evidence.mass arity query relevant factor =
      sumOver arity (relevant.toList.filter (!evidence.contains ·))
        (fun u => (relevant.toList.map (factor · u)).prod) (evidence.observe fun _ => 0) := by
  have hides_iff (name : String) :
      hides query evidence name = true ↔ name ∉ query ∧ name ∉ evidence := by
    rw [hides_eq, Bool.not_eq_true', ← Bool.not_eq_true, Bool.or_eq_true, not_or,
      Std.ExtTreeSet.contains_iff_mem, Std.ExtTreeMap.contains_iff_mem]
  have nodup := NameSet.nodup_toList relevant
  have joined : (query.toList ++ relevant.toList.filter (hides query evidence)).Nodup := by
    refine List.nodup_append.mpr ⟨NameSet.nodup_toList query, nodup.filter _, ?_⟩
    rintro name mem _ hidden rfl
    exact ((hides_iff name).mp (List.mem_filter.mp hidden).2).1 (Std.ExtTreeSet.mem_toList.mp mem)
  have perm : (query.toList ++ relevant.toList.filter (hides query evidence)).Perm
      (relevant.toList.filter (!evidence.contains ·)) := by
    refine (List.perm_ext_iff_of_nodup joined (nodup.filter _)).mpr fun name => ?_
    rw [List.mem_append, List.mem_filter, List.mem_filter, hides_iff, Std.ExtTreeSet.mem_toList,
      Std.ExtTreeSet.mem_toList, Bool.not_eq_true', ← Bool.not_eq_true,
      Std.ExtTreeMap.contains_iff_mem]
    constructor
    · rintro (asked | ⟨isRelevant, -, unseen⟩)
      · exact queried name asked
      · exact ⟨isRelevant, unseen⟩
    · rintro ⟨isRelevant, unseen⟩
      exact (em (name ∈ query)).imp_right fun notAsked => ⟨isRelevant, notAsked, unseen⟩
  rw [mass, ← sumOver_perm perm, sumOver_append]
  refine sumOver_observe (fun name mem => ?_) _
  exact Std.ExtTreeMap.getElem?_eq_none (queried name (Std.ExtTreeSet.mem_toList.mp mem)).2

end Evidence

namespace Model

open Store InferenceM Factor

variable {config : StoreConfig Rat} {noTolerance : config.tolerance = 0}
  {w start : Workspace Rat Rat}
  {n : Network Rat} {modelConfig : ModelConfig Rat} {ordering : DependencyGraph → List String}
  {m : Model Rat} {s : Store Rat Rat} {diagramOf : String → Diagram Rat} {base : Root → Nat}
  {held : List (Posterior Rat)}

/-- The probability that some variables have the values of a choice: the product of the tables of
all variables, summed over the values of the others. -/
def probability (m : Model Rat) (s : Store Rat Rat) (fixed : String → Bool) (v : Choice) : Rat :=
  sumOver m.network.arityOf (m.graph.names.filter (!fixed ·))
    (fun u => (m.graph.names.map (m.factor s · u)).prod) v

theorem Loaded.carries (loaded : m.Loaded (.pointwise noTolerance) diagramOf base s) :
    m.graph.Carries (m.factor s) := by
  intro name known u v same parents
  obtain ⟨t, found, head, isParent⟩ := loaded.engine.tabled name known
  obtain ⟨-, -, bits⟩ := loaded.holds name known t found
  rw [loaded.factor_eq known]
  refine Diagram.value_congr fun bit mem => ?_
  obtain ⟨other, inScope, owned⟩ := mem_scopeBits.mp (bits mem)
  refine Encoding.code_congr loaded.engine.encoding owned ?_
  rcases List.mem_cons.mp (NameSet.mem_ofList.mp inScope) with rfl | above
  · rw [head, same]
  · exact parents other ((isParent other).mp above)

/-- When the tables sum to one, a loaded model answers with the conditional probabilities of the
network, although it looks at the tables of the relevant variables only. -/
theorem answers_conditional_probabilities (noTolerance : modelConfig.store.tolerance = 0)
    (scalar : modelConfig.normalization = .scalar) (built : n.Built)
    (loads : load n modelConfig ordering = .ok (m, start))
    (stochastic : m.graph.Stochastic n.arityOf (m.factor start.store))
    (session : m.Session start held w) {query : NameSet} {evidence : Evidence}
    (queried : ∀ name ∈ query, name ∈ m.graph.names ∧ name ∉ evidence)
    (observed : ∀ name value, evidence[name]? = some value →
      name ∈ m.graph.names ∧ value < n.arityOf name) :
    ∃ p w',
      m.run query evidence true w = .ok (.posterior p) w' ∧
      (∀ names given, Std.ExtTreeSet.ofList names = query → n.resolve given = .ok evidence →
        m.query names given true w = .ok (.posterior p) w') ∧
      p.query = query.toList ∧
      p.likelihood =
        m.probability start.store evidence.contains (evidence.observe fun _ => 0) ∧
      (p.likelihood ≠ 0 → ∀ v : Choice, (∀ name ∈ query, v name < n.arityOf name) →
        m.Gives w'.store p v
          (m.probability start.store (fun name => query.contains name || evidence.contains name)
            (evidence.observe v) / p.likelihood)) := by
  obtain ⟨diagramOf, base, loaded⟩ := loaded_of_load (.pointwise noTolerance) rfl built loads
  obtain ⟨valid, graphed, -, -, rfl, -, normalization, -⟩ := load_eq_ok loads
  obtain ⟨rank, ranks⟩ := exists_ranks built valid graphed
  obtain ⟨relevant, p, w', isRelevant, run, asked, mass, -, shares⟩ :=
    loaded.answers (normalization.trans scalar) session (loaded.admits queried observed)
  have seeds (name : String) (mem : name ∈ query ∨ name ∈ evidence) :
      name ∈ query.toList ++ evidence.keys :=
    List.mem_append.mpr (mem.imp Std.ExtTreeSet.mem_toList.mpr Std.ExtTreeMap.mem_keys.mpr)
  have seen (name : String) (mem : name ∈ evidence) :=
    observed name _ (Std.ExtTreeMap.getElem?_eq_some_getElem mem)
  have below (v : Choice) (name : String) (mem : name ∈ evidence) :
      evidence.observe v name < m.network.arityOf name := by
    rw [Evidence.observe, Std.ExtTreeMap.getElem?_eq_some_getElem mem]
    exact (seen name mem).2
  have known (name : String) (mem : name ∈ relevant) : name ∈ m.graph.names := by
    refine loaded.engine.closed.above_mem (fun seed mem => ?_) ((isRelevant name).mp mem)
    rcases List.mem_append.mp mem with inQuery | inEvidence
    · exact (queried seed (Std.ExtTreeSet.mem_toList.mp inQuery)).1
    · exact (seen seed (Std.ExtTreeMap.mem_keys.mp inEvidence)).1
  have pruned (fixed : String → Bool) (v : Choice)
      (inside : ∀ name, fixed name = true → name ∈ query ∨ name ∈ evidence)
      (inDomain : ∀ name, fixed name = true → v name < m.network.arityOf name) :
      m.probability start.store fixed v =
        sumOver m.network.arityOf (relevant.toList.filter (!fixed ·))
          (fun u => (relevant.toList.map (m.factor start.store · u)).prod) v := by
    refine sumOver_relevant ranks loaded.engine.closed loaded.engine.nodup loaded.carries
      stochastic known (fun name mem parent isParent => ?_) (fun name isFixed => ?_) inDomain
    · rw [isRelevant] at mem ⊢
      exact mem.of_parent isParent
    · exact (isRelevant name).mpr (.of_seed (seeds name (inside name isFixed)))
  refine ⟨p, w', run, fun names given same resolved => ?_, asked, ?_, fun nonzero v inDomain => ?_⟩
  · rw [query_eq, resolved, same]
    exact run
  · have isObserved (name : String) (mem : evidence.contains name = true) : name ∈ evidence :=
      Std.ExtTreeMap.contains_iff_mem.mp mem
    rw [mass, pruned evidence.contains _ (fun name mem => .inr (isObserved name mem))
      fun name mem => below _ name (isObserved name mem)]
    exact Evidence.mass_eq fun name mem =>
      ⟨(isRelevant name).mpr (.of_seed (seeds name (.inl mem))), (queried name mem).2⟩
  · have fixed (name : String) (isFixed : (query.contains name || evidence.contains name) = true) :
        name ∈ query ∨ name ∈ evidence := by
      rwa [Bool.or_eq_true, Std.ExtTreeSet.contains_iff_mem,
        Std.ExtTreeMap.contains_iff_mem] at isFixed
    rw [pruned _ _ fixed fun name isFixed => ?_]
    · simp only [← Evidence.hides_eq]
      exact shares nonzero v
    · rcases fixed name isFixed with asked | there
      · rw [Evidence.observe_of_none (Std.ExtTreeMap.getElem?_eq_none (queried name asked).2)]
        exact inDomain name asked
      · exact below v name there

theorem sprinkler_stochastic (loads : load .sprinkler ⟨.exact, .scalar⟩
    (DependencyGraph.completedOrder []) = .ok (m, start)) :
    m.graph.Stochastic Network.sprinkler.arityOf (m.factor start.store) := by
  obtain ⟨graph, rain, sprinkler⟩ := sprinkler_factors loads
  rw [graph]
  refine List.forall_mem_cons.mpr
    ⟨fun v _ => ?_, List.forall_mem_singleton.mpr fun v inDomain => ?_⟩
  · show ∑ value ∈ Finset.range 2, _ = _
    rw [Finset.sum_range_succ, Finset.sum_range_one, rain _ Nat.zero_lt_two,
      rain _ Nat.one_lt_two, Function.update_self, Function.update_self]
    decide +kernel
  · have below : v "Rain" < 2 := inDomain "Rain" (DependencyGraph.isParent_iff.mpr (.head _))
    have on := sprinkler (Function.update v "Sprinkler" 0) below Nat.zero_lt_two
    have off := sprinkler (Function.update v "Sprinkler" 1) below Nat.one_lt_two
    show ∑ value ∈ Finset.range 2, _ = _
    rw [Finset.sum_range_succ, Finset.sum_range_one, on, off]
    show ConditionalTable.sprinkler.entry [0, v "Rain"] +
      ConditionalTable.sprinkler.entry [1, v "Rain"] = 1
    obtain yes | no : v "Rain" = 0 ∨ v "Rain" = 1 := by omega
    · rw [yes]
      decide +kernel
    · rw [no]
      decide +kernel

theorem rain_alone : ∃ (m : Model Rat) (start w : Workspace Rat Rat) (p : Posterior Rat),
    load .sprinkler ⟨.exact, .scalar⟩ (DependencyGraph.completedOrder []) = .ok (m, start) ∧
    m.query ["Rain"] [] true start = .ok (.posterior p) w ∧
    p.likelihood = 1 ∧ m.evaluate w.store p [("Rain", "yes")] = .ok (1 / 5) := by
  obtain ⟨m, start, loads⟩ := exists_load_sprinkler
  obtain ⟨graph, -⟩ := sprinkler_factors loads
  obtain ⟨-, -, -, -, network, -⟩ := load_eq_ok loads
  have queried : ∀ name ∈ (.ofList ["Rain"] : NameSet),
      name ∈ m.graph.names ∧ name ∉ (∅ : Evidence) := by
    intro name mem
    obtain rfl := List.mem_singleton.mp (NameSet.mem_ofList.mp mem)
    rw [graph]
    decide +kernel
  obtain ⟨p, w, -, run, asked, likelihood, shares⟩ :=
    answers_conditional_probabilities rfl rfl Network.built_sprinkler loads
      (sprinkler_stochastic loads) .start queried fun _ _ seen => nomatch seen
  have summed (v : Choice) (below : v "Rain" < 2) :
      sumOver Network.sprinkler.arityOf ["Sprinkler"]
          (fun u => (["Rain", "Sprinkler"].map (m.factor start.store · u)).prod) v =
        ConditionalTable.rain.entry [v "Rain"] *
            ConditionalTable.sprinkler.entry [0, v "Rain"] +
          ConditionalTable.rain.entry [v "Rain"] *
            ConditionalTable.sprinkler.entry [1, v "Rain"] := by
    have product (value : Nat) (small : value < 2) :=
      sprinkler_product loads (v := Function.update v "Sprinkler" value) below small
    rw [sumOver, show Network.sprinkler.arityOf "Sprinkler" = 2 from rfl, Finset.sum_range_succ,
      Finset.sum_range_one, sumOver, sumOver, product 0 Nat.zero_lt_two, product 1 Nat.one_lt_two]
    rfl
  have whole : p.likelihood = 1 := by
    rw [likelihood, probability, graph, network]
    show sumOver Network.sprinkler.arityOf ["Rain", "Sprinkler"] _ _ = 1
    rw [sumOver, show Network.sprinkler.arityOf "Rain" = 2 from rfl, Finset.sum_range_succ,
      Finset.sum_range_one, summed _ Nat.zero_lt_two, summed _ Nat.one_lt_two]
    decide +kernel
  refine ⟨m, start, w, p, loads, run ["Rain"] [] rfl rfl, whole, ?_⟩
  rw [(shares (by rw [whole]; decide) (fun _ => 0) ?_).2 [("Rain", "yes")] ?_, whole,
    probability, graph, network]
  · refine congrArg Except.ok ?_
    show sumOver Network.sprinkler.arityOf ["Sprinkler"] _ _ / 1 = _
    rw [summed _ Nat.zero_lt_two]
    decide +kernel
  · intro name mem
    obtain rfl := List.mem_singleton.mp (NameSet.mem_ofList.mp mem)
    exact Nat.zero_lt_two
  · intro name mem
    rw [asked, Std.ExtTreeSet.mem_toList] at mem
    obtain rfl := List.mem_singleton.mp (NameSet.mem_ofList.mp mem)
    exact ⟨"yes", rfl, network ▸ rfl⟩

end Model

end BayesDiagram
