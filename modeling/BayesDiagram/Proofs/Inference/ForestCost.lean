import BayesDiagram.Proofs.Inference.DryRunWidth
import BayesDiagram.Proofs.Inference.LoadOutcome
import BayesDiagram.Proofs.Network.MinFill

/-! Forests are cheap under the min-fill order. Where every table has at most one parent, the order
peels the moral graph of all variables, and so that of the variables that a request is about; the
cost of a dry run is then two more than the number of queried variables, however long the paths
are. A chain is the forest with a single path, which the order peels from both of its ends. -/
namespace BayesDiagram

variable {σ : Type}

def ConditionalTable.follows (head parent : String) : ConditionalTable Rat where
  head := head
  parents := [parent]
  entries := .ofList
    [([0, 0], (3 / 4 : Rat)), ([0, 1], 1 / 4), ([1, 0], 1 / 4), ([1, 1], 3 / 4)]
  tag := none

namespace Network

variable {n : Network σ} {first name : String} {later : List String} {t : ConditionalTable σ}

/-- The variables with a table form a path, each one depending on the one before it only. -/
structure IsChain (n : Network σ) (first : String) (later : List String) : Prop where
  distinct : (first :: later).Nodup
  tabled : ∀ name, (∃ t, n.table? name = some t) ↔ name ∈ first :: later
  start : ∀ t, n.table? first = some t → t.parents = []
  links : (first :: later).IsChain fun parent name =>
    ∀ t, n.table? name = some t → t.parents = [parent]

theorem exists_before {R : String → String → Prop} (chain : (first :: later).IsChain R)
    (mem : name ∈ later) : ∃ before ∈ first :: later, R before name := by
  induction later generalizing first with
  | nil => exact absurd mem List.not_mem_nil
  | cons second later ih =>
    rw [List.isChain_cons_cons] at chain
    rcases List.mem_cons.mp mem with rfl | after
    · exact ⟨first, .head _, chain.1⟩
    · obtain ⟨before, inRest, related⟩ := ih chain.2 after
      exact ⟨before, .tail _ inRest, related⟩

theorem IsChain.parents (chain : n.IsChain first later) (found : n.table? name = some t) :
    t.parents = [] ∨ ∃ parent ∈ first :: later, t.parents = [parent] := by
  rcases List.mem_cons.mp ((chain.tabled name).mp ⟨t, found⟩) with rfl | mem
  · exact .inl (chain.start t found)
  · obtain ⟨parent, before, link⟩ := exists_before chain.links mem
    exact .inr ⟨parent, before, link t found⟩

def fall : Network Rat :=
  let declared : Network Rat :=
    { declared := ["Rain", "Wet", "Slip", "Fall"].map fun name => ⟨name, ["yes", "no"]⟩ }
  (((declared.attach .rain).attach (.follows "Wet" "Rain")).attach (.follows "Slip" "Wet")).attach
    (.follows "Fall" "Slip")

theorem built_fall : fall.Built := by
  have rain := Built.empty.declare (v := ⟨"Rain", ["yes", "no"]⟩) (n := ({} : Network Rat)) rfl
  have slip := (rain.declare (v := ⟨"Wet", ["yes", "no"]⟩) rfl).declare
    (v := ⟨"Slip", ["yes", "no"]⟩) rfl
  have declared := slip.declare (v := ⟨"Fall", ["yes", "no"]⟩) rfl
  exact (((declared.attach .rain).attach (.follows "Wet" "Rain")).attach
    (.follows "Slip" "Wet")).attach (.follows "Fall" "Slip")

theorem validate_fall : fall.validate = .ok () :=
  eq_ok_of_isOk (by decide +kernel)

theorem isChain_fall : fall.IsChain "Rain" ["Wet", "Slip", "Fall"] := by
  have tables (name : String) : fall.table? name =
      if name = "Fall" then some (.follows "Fall" "Slip")
      else if name = "Slip" then some (.follows "Slip" "Wet")
      else if name = "Wet" then some (.follows "Wet" "Rain")
      else if name = "Rain" then some .rain else none := by
    simp only [fall, table?, attach, Std.ExtTreeMap.getElem?_insert,
      Std.LawfulEqOrd.compare_eq_iff_eq, @eq_comm _ name]
    rfl
  exact
    { distinct := by decide
      tabled := fun name => by
        rw [← Option.isSome_iff_exists, tables]
        grind
      start := fun t found => by
        simp only [tables, String.reduceEq, if_false, if_true, Option.some.injEq] at found
        exact found ▸ rfl
      links := by
        have link {parent name : String} (here : fall.table? name = some (.follows name parent))
            (t : ConditionalTable Rat) (found : fall.table? name = some t) :
            t.parents = [parent] := by
          rw [here] at found
          cases found
          rfl
        refine .cons_cons (link ?_) (.cons_cons (link ?_) (.cons_cons (link ?_) (.singleton _)))
        all_goals
          rw [tables]
          rfl }

end Network

namespace Model

open Failure Network

variable {κ : Type} [Scalar σ] [Coefficient σ κ] {n : Network σ} {config : ModelConfig σ}
  {g : DependencyGraph} {first : String} {later : List String} {s : Store σ κ}

/-! ### Loading -/

theorem exists_load_minFill (built : n.Built) (valid : n.validate = .ok ())
    (fits : n.bitCount < Bit.maxId) (whole : ∀ parent, ¬n.MissingParent parent)
    (created : (Store.create config.store : Except Fault (Store σ κ)) = .ok s) :
    ∃ (m : Model σ) (w : Workspace σ κ),
      load n config DependencyGraph.minFillOrder = .ok (m, w) := by
  rcases graphOf_cases built valid with ⟨parent, missing, -⟩ | ⟨-, g, graphed, -⟩
  · exact absurd missing (whole parent)
  · obtain ⟨nodup, -, closed, -⟩ := graphOf_spec built graphed
    exact exists_load_of_perm built valid fits graphed (g.minFillOrder_perm nodup closed) created

/-! ### Costs -/

omit [Scalar σ] in
theorem single_parents (built : n.Built) (graphed : graphOf n = .ok g)
    (single : ∀ head t, n.table? head = some t → t.parents.length ≤ 1)
    (parent parent' child : String) (isParent : g.IsParent parent child)
    (isParent' : g.IsParent parent' child) : parent = parent' := by
  obtain ⟨-, tabled, closed, links⟩ := graphOf_spec built graphed
  have known := (closed _ (DependencyGraph.isParent_iff.mp isParent)).2
  obtain ⟨-, t, found⟩ := tabled child known
  rw [links child known t found] at isParent isParent'
  obtain ⟨only, parents⟩ := List.length_eq_one_iff.mp
    (Nat.le_antisymm (single child t found) (List.length_pos_of_mem isParent))
  rw [parents, List.mem_singleton] at isParent isParent'
  rw [isParent, isParent']

theorem exists_cost_le {m : Model σ} {start : Workspace σ κ} (built : n.Built)
    (loads : load n config DependencyGraph.minFillOrder = .ok (m, start))
    (single : ∀ head t, n.table? head = some t → t.parents.length ≤ 1) (w : Workspace σ κ)
    (query : NameSet) (evidence : Evidence)
    (queried : ∀ name ∈ query, name ∈ m.graph.names ∧ name ∉ evidence)
    (observed : ∀ name value, evidence[name]? = some value →
      name ∈ m.graph.names ∧ value < n.arityOf name) :
    ∃ (cost : Nat) (w' : Workspace σ κ), cost ≤ 2 + query.size ∧
      m.run query evidence false w = .ok (.cost cost) w' ∧
      ∀ names given, Std.ExtTreeSet.ofList names = query → n.resolve given = .ok evidence →
        m.query names given false w = .ok (.cost cost) w' := by
  obtain ⟨diagramOf, base, loaded⟩ :=
    loaded_of_load (Meaning.blank (Reading.plain config.store)) rfl built loads
  obtain ⟨valid, graphed, -, -, rfl, -, -, along, -⟩ := load_eq_ok loads
  obtain ⟨relevant, operations, checks⟩ := (loaded.admits queried observed).checked loaded.engine
  have run := Engine.run_of_estimated (κ := κ) (w := w) checks
  rw [Engine.estimateCost_eq_inducedWidth loaded.engine checks] at run
  refine ⟨_, _, ?_, run, fun names given same resolved => ?_⟩
  · obtain ⟨nodup, -, closed, -⟩ := graphOf_spec built graphed
    obtain ⟨rank, ranks⟩ := exists_ranks built valid graphed
    have known (name : String) (mem : name ∈ relevant) : name ∈ m.graph.names :=
      Engine.mem_names_of_relevant loaded.engine checks mem
    have peels := m.graph.minFillOrder_peels nodup closed ranks
      (single_parents built graphed single)
    rw [along, ← NameSet.ncard_eq_size]
    refine inducedWidth_le_of_peels ((peels.sublist List.filter_sublist).congr ?_) ?_
    · exact fun a _ b _ adjacent => DependencyGraph.moralWithin_mono
        (fun name mem => NameSet.mem_ofList.mpr (known name mem)) adjacent
    · intro a b adjacent
      have mem : b ∈ relevant := adjacent.2.2.1
      refine .inl (List.mem_filter.mpr ⟨?_, Std.ExtTreeSet.contains_iff_mem.mpr mem⟩)
      exact (m.graph.minFillOrder_perm nodup closed).mem_iff.mpr (known b mem)
  · rw [query_eq, resolved, same]
    exact run

/-- A chain whose bits can all be numbered is loaded in the min-fill order, and the cost of every
request that a loaded chain admits is at most two more than the number of queried variables. -/
theorem chain_cost (config : ModelConfig σ) (built : n.Built) (chain : n.IsChain first later) :
    (∀ s : Store σ κ, Store.create config.store = .ok s → n.validate = .ok () →
      n.bitCount < Bit.maxId → ∃ (m : Model σ) (start : Workspace σ κ),
        load n config DependencyGraph.minFillOrder = .ok (m, start)) ∧
    ∀ (m : Model σ) (start : Workspace σ κ),
      load n config DependencyGraph.minFillOrder = .ok (m, start) →
      ∀ (w : Workspace σ κ) (query : NameSet) (evidence : Evidence),
      (∀ name ∈ query, name ∈ first :: later ∧ name ∉ evidence) →
      (∀ name value, evidence[name]? = some value →
        name ∈ first :: later ∧ value < n.arityOf name) →
      ∃ (cost : Nat) (w' : Workspace σ κ), cost ≤ 2 + query.size ∧
        m.run query evidence false w = .ok (.cost cost) w' ∧
        ∀ names given, Std.ExtTreeSet.ofList names = query → n.resolve given = .ok evidence →
          m.query names given false w = .ok (.cost cost) w' := by
  refine ⟨fun s created valid fits => ?_, fun m start loads w query evidence queried observed => ?_⟩
  · refine exists_load_minFill built valid fits ?_ created
    rintro parent ⟨tableless, head, t, found, isParent⟩
    rcases chain.parents found with none | ⟨only, mem, parents⟩
    · rw [none] at isParent
      exact List.not_mem_nil isParent
    · rw [parents, List.mem_singleton] at isParent
      obtain ⟨t', tabled⟩ := (chain.tabled parent).mpr (isParent ▸ mem)
      cases tabled.symm.trans tableless
  · have single (head : String) (t : ConditionalTable σ) (found : n.table? head = some t) :
        t.parents.length ≤ 1 := by
      rcases chain.parents found with none | ⟨only, -, parents⟩
      · rw [none]
        exact Nat.zero_le 1
      · rw [parents]
        exact Nat.le_refl 1
    obtain ⟨valid, graphed, -⟩ := load_eq_ok loads
    have known {name : String} (mem : name ∈ first :: later) : name ∈ m.graph.names := by
      obtain ⟨t, found⟩ := (chain.tabled name).mpr mem
      rw [names_of_graphOf built graphed]
      exact mem_tabledNames_of_table built valid found
    exact exists_cost_le built loads single w query evidence
      (fun name mem => ⟨known (queried name mem).1, (queried name mem).2⟩)
      fun name value seen => ⟨known (observed name value seen).1, (observed name value seen).2⟩

theorem chain_cost_fall :
    Network.fall.Built ∧ Network.fall.IsChain "Rain" ["Wet", "Slip", "Fall"] ∧
    ∃ (m : Model Rat) (start w : Workspace Rat Rat) (cost : Nat),
      load .fall ⟨.exact, .scalar⟩ DependencyGraph.minFillOrder = .ok (m, start) ∧
      m.order = ["Fall", "Rain", "Slip", "Wet"] ∧ cost ≤ 3 ∧
      m.query ["Wet"] [("Fall", "yes")] false start = .ok (.cost cost) w := by
  obtain ⟨loadable, costs⟩ := chain_cost (κ := Rat) ⟨.exact, .scalar⟩ Network.built_fall
    Network.isChain_fall
  obtain ⟨m, start, loads⟩ := loadable Store.exact rfl Network.validate_fall (by decide)
  obtain ⟨-, graphed, -, -, -, -, -, along, -⟩ := load_eq_ok loads
  let evidence : Evidence := (∅ : Evidence).insert "Fall" 0
  obtain ⟨cost, w, le, -, asked⟩ := costs m start loads start (.ofList ["Wet"]) evidence
    (fun name mem => by
      obtain rfl := List.mem_singleton.mp (NameSet.mem_ofList.mp mem)
      decide +kernel)
    (fun name value seen => by
      rw [Std.ExtTreeMap.getElem?_insert] at seen
      split at seen
      · next same =>
        cases seen
        obtain rfl := Std.LawfulEqOrd.eq_of_compare same
        decide +kernel
      · cases seen)
  refine ⟨Network.built_fall, Network.isChain_fall, m, start, w, cost, loads, ?_, le,
    asked ["Wet"] [("Fall", "yes")] rfl rfl⟩
  have graph : m.graph = ⟨["Rain", "Wet", "Slip", "Fall"],
      [("Slip", "Fall"), ("Wet", "Slip"), ("Rain", "Wet")]⟩ :=
    (Except.ok.inj graphed).symm
  rw [along, graph]
  decide +kernel

end Model

end BayesDiagram
