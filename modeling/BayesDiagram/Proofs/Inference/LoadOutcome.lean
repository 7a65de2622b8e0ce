import BayesDiagram.Proofs.Inference.ScopeSafety
import BayesDiagram.Proofs.Network.Numbering
import Mathlib.Algebra.Order.BigOperators.Group.List
import Mathlib.Algebra.Order.Ring.Nat

/-! How loading ends. It is refused for a network that is not valid, for a parent without a table
or for an order that is not one of the variables, and for nothing else as long as there are
identifiers for all bits: what the checks let through can be ordered, encoded and compiled. -/
namespace BayesDiagram

variable {σ : Type}

namespace Network

variable {n : Network σ} {name head : String} {t : ConditionalTable σ}

def tabledNames (n : Network σ) : List String :=
  (n.declared.map Variable.name).filter n.tables.contains

def MissingParent (n : Network σ) (parent : String) : Prop :=
  n.table? parent = none ∧ ∃ head t, n.table? head = some t ∧ parent ∈ t.parents

def bitCount (n : Network σ) : Nat :=
  (n.declared.map fun v => bitsFor v.arity).sum

theorem Built.nodup_names (built : n.Built) : (n.declared.map Variable.name).Nodup := by
  induction built with
  | empty => exact List.nodup_nil
  | @declare n n' v _ run ih =>
    rw [Network.declare] at run
    split at run
    · cases run
    · next fresh =>
      cases run
      rw [List.map_append, List.nodup_append]
      refine ⟨ih, List.nodup_singleton v.name, fun name mem other same => ?_⟩
      rw [List.mem_singleton.mp same]
      rintro rfl
      obtain ⟨before, declared, twice⟩ := List.mem_map.mp mem
      exact fresh (List.any_eq_true.mpr ⟨before, declared, beq_iff_eq.mpr twice⟩)
  | attach _ _ ih => exact ih

theorem Built.arityOf_eq (built : n.Built) {v : Variable} (declared : v ∈ n.declared) :
    n.arityOf v.name = v.arity := by
  obtain ⟨other, found⟩ := exists_getVariable declared
  obtain ⟨mem, same⟩ := mem_of_getVariable found
  rw [arityOf_of_getVariable found, List.inj_on_of_nodup_map built.nodup_names mem declared same]

theorem Built.sum_bitsFor_le (built : n.Built) {order : List String}
    (perm : order.Perm n.tabledNames) :
    (order.map fun name => bitsFor (n.arityOf name)).sum ≤ n.bitCount := by
  let bits := fun name => bitsFor (n.arityOf name)
  have sublist := (List.filter_sublist (p := n.tables.contains)
    (l := n.declared.map Variable.name)).map bits
  calc (order.map bits).sum
      = (n.tabledNames.map bits).sum := (perm.map bits).sum_eq
    _ ≤ ((n.declared.map Variable.name).map bits).sum := sublist.sum_le_sum fun _ _ => Nat.zero_le _
    _ = n.bitCount := by
        rw [List.map_map]
        exact congrArg List.sum (List.map_congr_left fun v declared =>
          congrArg bitsFor (built.arityOf_eq declared))

theorem mem_tabledNames :
    name ∈ n.tabledNames ↔ (∃ v, n.getVariable name = .ok v) ∧ ∃ t, n.table? name = some t := by
  have contained : n.tables.contains name = true ↔ ∃ t, n.table? name = some t := by
    rw [table?, ← Option.isSome_iff_exists, Std.ExtTreeMap.isSome_getElem?_eq_contains]
  rw [tabledNames, List.mem_filter, List.mem_map, contained]
  refine and_congr_left fun _ => ⟨?_, ?_⟩
  · rintro ⟨v, declared, rfl⟩
    exact exists_getVariable declared
  · rintro ⟨v, found⟩
    exact ⟨v, mem_of_getVariable found⟩

variable [Scalar σ]

theorem declared_of_validate (valid : n.validate = .ok ()) (found : n.table? head = some t)
    (mem : name ∈ t.scope) : ∃ v, n.getVariable name = .ok v := by
  obtain ⟨-, declared, read, -⟩ := checkTable_eq_ok ((validate_eq_ok valid).1 head t found)
  exact answer_of_mapM_eq_ok read mem

theorem mem_tabledNames_of_table (built : n.Built) (valid : n.validate = .ok ())
    (found : n.table? head = some t) : head ∈ n.tabledNames := by
  obtain rfl := built.head_eq found
  exact mem_tabledNames.mpr ⟨declared_of_validate valid found (.head _), t, found⟩

end Network

namespace Model

open Failure Network

variable {n : Network σ} {order : List String}

theorem names_of_graphOf (built : n.Built) {g : DependencyGraph} (graphed : graphOf n = .ok g) :
    g.names = n.tabledNames :=
  names_of_dependencies (built.nodup_names.filter _) graphed

theorem graphOf_cases [Scalar σ] (built : n.Built) (valid : n.validate = .ok ()) :
    (∃ parent, n.MissingParent parent ∧ graphOf n = .error (.unknownVariable parent)) ∨
      (∀ parent, ¬n.MissingParent parent) ∧ ∃ g, graphOf n = .ok g ∧ g.names = n.tabledNames := by
  cases graphed : graphOf n with
  | error e =>
    obtain ⟨t, mem, parent, place, absent, rfl⟩ := dependencies_eq_error graphed
    obtain ⟨head, -, found⟩ := List.mem_filterMap.mp mem
    rcases place with isParent | rfl
    · refine .inl ⟨parent, ⟨?_, head, t, found, isParent⟩, rfl⟩
      have declared := declared_of_validate valid found (List.mem_cons_of_mem _ isParent)
      refine Option.eq_none_iff_forall_ne_some.mpr fun t' here => absent ?_
      exact mem_tabledNames.mpr ⟨declared, t', here⟩
    · exact absurd (mem_tabledNames_of_table built valid found) (built.head_eq found ▸ absent)
  | ok g =>
    have names := names_of_graphOf built graphed
    obtain ⟨-, -, closed, links⟩ := graphOf_spec built graphed
    refine .inr ⟨?_, g, rfl, names⟩
    rintro parent ⟨tableless, head, t, found, isParent⟩
    have tabled := names ▸ mem_tabledNames_of_table built valid found
    have isLink := (links head tabled t found parent).mpr isParent
    have known := (closed _ (DependencyGraph.isParent_iff.mp isLink)).1
    obtain ⟨-, t', here⟩ := mem_tabledNames.mp (names ▸ known)
    cases here.symm.trans tableless

theorem encodingOf_eq (known : ∀ name ∈ order, ∃ v, n.getVariable name = .ok v) :
    encodingOf n order =
      liftFault (Encoding.allocateAll (order.map fun name => (name, n.arityOf name))) := by
  rw [encodingOf, Encoding.allocateAll]
  generalize ({} : Encoding) = start
  induction order generalizing start with
  | nil => rfl
  | cons first order ih =>
    obtain ⟨v, found⟩ := known first (.head order)
    rw [List.foldlM_cons, List.map_cons, List.foldlM_cons,
      bind_of_eq_ok (liftError_eq_ok.mpr found), arityOf_of_getVariable found]
    dsimp only
    cases start.allocate first v.arity with
    | error fault => rfl
    | ok mid => exact ih (fun name later => known name (.tail first later)) mid

theorem exists_encodingOf (nodup : order.Nodup)
    (known : ∀ name ∈ order, ∃ v, n.getVariable name = .ok v)
    (fits : (order.map fun name => bitsFor (n.arityOf name)).sum < Bit.maxId) :
    ∃ e, encodingOf n order = .ok e := by
  let arities := order.map fun name => (name, n.arityOf name)
  have names : arities.map Prod.fst = order := by
    rw [List.map_map]
    exact List.map_id order
  have count : Encoding.bitCount arities < Bit.maxId := by
    rw [Encoding.bitCount, List.map_map]
    exact fits
  obtain ⟨e, run, -⟩ := Encoding.exists_allocateAll (names.symm ▸ nodup) count
  exact ⟨e, (encodingOf_eq known).trans (liftFault_eq_ok.mpr run)⟩

variable [Scalar σ] {κ : Type} [Coefficient σ κ]

/-- What a loaded model is: its graph has the variables with a table and the links of the tables,
its bits are numbered along the order, block after block, and the diagram of each table is pinned
and tests only bits of the table's scope. -/
structure LaidOut (m : Model σ) (n : Network σ) (ordering : DependencyGraph → List String)
    (w : Workspace σ κ) : Prop where
  network : m.network = n
  names : m.graph.names = n.tabledNames
  links : ∀ parent child, m.graph.IsParent parent child ↔
    ∃ t, n.table? child = some t ∧ parent ∈ t.parents
  order : m.order = ordering m.graph
  bits : m.bitOrder = (List.range' 1 m.encoding.size).map Bit.mk
  blocks : m.bitOrder = m.order.flatMap m.encoding.bitsOf
  block : ∀ name ∈ m.order, ∃ first, (m.encoding.bits name : Except (Error σ) (List Bit)) =
    .ok ((List.range' first (bitsFor (n.arityOf name))).map Bit.mk)
  compiled : ∀ head t, n.table? head = some t → ∃ c, m.tables[head]? = some c ∧ c.head = head ∧
    (∀ parent, parent ∈ c.parents ↔ parent ∈ t.parents) ∧ w.store.isPinned c.root = true ∧
    w.store.TestsWithin m.encoding (.ofList t.scope) c.root

theorem laidOut_of_load {config : ModelConfig σ} {ordering : DependencyGraph → List String}
    {m : Model σ} {w : Workspace σ κ} (built : n.Built)
    (run : load n config ordering = .ok (m, w)) : m.LaidOut n ordering w := by
  obtain ⟨valid, graphed, ordered, encoded, rfl, -, -, along, expanded, -⟩ := load_eq_ok run
  obtain ⟨diagramOf, base, loaded⟩ :=
    loaded_of_load (Meaning.blank (Reading.plain config.store)) rfl built run
  obtain ⟨-, tabled, closed, links⟩ := graphOf_spec built graphed
  obtain ⟨-, orderNames⟩ := DependencyGraph.checkOrder_eq_ok.mp ordered
  have sound : m.encoding.Sound := ⟨_, encodingOf_spec encoded⟩
  have names := names_of_graphOf built graphed
  have encodes (name : String) (known : name ∈ m.graph.names) :=
    encodes_of_checkOrder ordered encoded known
  have blocks : m.bitOrder = m.order.flatMap m.encoding.bitsOf := by
    rw [expand_of_checkOrder ordered encoded] at expanded
    exact (Except.ok.inj expanded).symm
  have bits : m.bitOrder = (List.range' 1 m.encoding.size).map Bit.mk := by
    have names : (m.order.map fun name => (name, m.network.arityOf name)).map Prod.fst =
        m.order := by
      rw [List.map_map]
      exact List.map_id m.order
    rw [blocks, ← (encodingOf_spec encoded).flatMap_bitsOf, names]
  have known {head : String} {t : ConditionalTable σ} (found : m.network.table? head = some t) :
      head ∈ m.graph.names :=
    names ▸ mem_tabledNames_of_table built valid found
  exact
    { network := rfl
      names := names
      links := fun parent child => by
        constructor
        · intro isLink
          obtain ⟨-, t, found⟩ := tabled child
            (closed _ (DependencyGraph.isParent_iff.mp isLink)).2
          exact ⟨t, found, (links child (names ▸ known found) t found parent).mp isLink⟩
        · rintro ⟨t, found, isParent⟩
          exact (links child (known found) t found parent).mpr isParent
      order := along
      bits := bits
      blocks := blocks
      block := fun name mem => by
        obtain ⟨b, found, arity⟩ := encodes name ((orderNames name).mp mem)
        obtain ⟨s, rfl⟩ := sound.exists_slot found
        refine ⟨s.first, ?_⟩
        rw [Encoding.bits_of_block? found, Encoding.bitsOf_of_block? found, ← arity]
        rfl
      compiled := fun head t found => by
        obtain ⟨c, here, isHead, parents⟩ := loaded.engine.tabled head (known found)
        obtain ⟨-, shown, within⟩ := loaded.holds head (known found) c here
        have scope (parent : String) : parent ∈ c.parents ↔ parent ∈ t.parents :=
          (parents parent).trans (links head (known found) t found parent)
        refine ⟨c, here, isHead, scope, loaded.pinned head c here,
          shown.testsWithin (within.trans (Factor.scopeBits_mono fun name inScope => ?_))⟩
        rw [NameSet.mem_ofList, CompiledTable.scope, List.mem_cons, isHead, scope] at inScope
        rwa [NameSet.mem_ofList, ConditionalTable.scope, List.mem_cons, built.head_eq found] }

theorem exists_load_of_perm {config : ModelConfig σ} {ordering : DependencyGraph → List String}
    {g : DependencyGraph} {s : Store σ κ} (built : n.Built) (valid : n.validate = .ok ())
    (fits : n.bitCount < Bit.maxId) (graphed : graphOf n = .ok g)
    (perm : (ordering g).Perm g.names) (created : Store.create config.store = .ok s) :
    ∃ (m : Model σ) (w : Workspace σ κ), load n config ordering = .ok (m, w) := by
  have names := names_of_graphOf built graphed
  have distinct : n.tabledNames.Nodup := built.nodup_names.filter _
  rw [names] at perm
  obtain ⟨e, encoded⟩ := exists_encodingOf (perm.nodup_iff.mpr distinct)
    (fun name mem => (mem_tabledNames.mp (perm.mem_iff.mp mem)).1)
    (Nat.lt_of_le_of_lt (built.sum_bitsFor_le perm) fits)
  have ordered :=
    (DependencyGraph.checkOrder_iff_perm (σ := σ) (names ▸ distinct)).mpr (names ▸ perm)
  exact exists_load built valid graphed ordered encoded created

/-- Loading a network whose bits can all be numbered, under a configuration for a store. It returns
the error of the validation if there is one; else it blames a parent without a table if there is
one; else it refuses an order that does not list the variables with a table once each; else it
returns a model. -/
theorem load_outcome (config : ModelConfig σ) (ordering : DependencyGraph → List String)
    {s : Store σ κ} (built : n.Built) (fits : n.bitCount < Bit.maxId)
    (created : Store.create config.store = .ok s) :
    (∀ e, n.validate = .error e → load (κ := κ) n config ordering = .error (.error e)) ∧
    (n.validate = .ok () →
      ((∃ parent, n.MissingParent parent) → ∃ parent, n.MissingParent parent ∧
        load (κ := κ) n config ordering = .error (.error (.unknownVariable parent))) ∧
      ((∀ parent, ¬n.MissingParent parent) → ∃ g, graphOf n = .ok g ∧ g.names = n.tabledNames ∧
        (¬(ordering g).Perm n.tabledNames → ∃ defect,
          load (κ := κ) n config ordering = .error (.error (.invalidOrder defect))) ∧
        ((ordering g).Perm n.tabledNames → ∃ (m : Model σ) (w : Workspace σ κ),
          load n config ordering = .ok (m, w) ∧ m.graph = g ∧ m.config = config ∧
            m.LaidOut n ordering w))) := by
  refine ⟨fun e invalid => ?_, fun valid => ?_⟩
  · rw [load, invalid]
    rfl
  rcases graphOf_cases built valid with ⟨parent, missing, refused⟩ | ⟨whole, g, graphed, names⟩
  · refine ⟨fun _ => ⟨parent, missing, ?_⟩, fun whole => absurd missing (whole parent)⟩
    rw [load, bind_of_eq_ok (liftError_eq_ok.mpr valid), refused]
    rfl
  refine ⟨fun missing => absurd missing (not_exists.mpr whole), fun _ => ?_⟩
  have distinct : n.tabledNames.Nodup := built.nodup_names.filter _
  refine ⟨g, graphed, names, fun misordered => ?_, fun perm => ?_⟩
  · obtain ⟨defect, refused⟩ := DependencyGraph.exists_defect (σ := σ)
      (names ▸ distinct) (names ▸ misordered)
    refine ⟨defect, ?_⟩
    rw [load, bind_of_eq_ok (liftError_eq_ok.mpr valid),
      bind_of_eq_ok (liftError_eq_ok.mpr graphed)]
    dsimp only
    rw [refused]
    rfl
  · obtain ⟨m, w, run⟩ :=
      exists_load_of_perm built valid fits graphed (names ▸ perm) created
    obtain ⟨-, graphed', -, -, -, configured, -⟩ := load_eq_ok run
    exact ⟨m, w, run, Except.ok.inj (graphed'.symm.trans graphed), configured,
      laidOut_of_load built run⟩

theorem load_outcome_sprinkler :
    Network.sprinkler.Built ∧ Network.sprinkler.bitCount < Bit.maxId ∧
      ∃ (m : Model Rat) (w : Workspace Rat Rat),
        load .sprinkler ⟨.exact, .scalar⟩ (DependencyGraph.completedOrder []) = .ok (m, w) ∧
          m.LaidOut .sprinkler (DependencyGraph.completedOrder []) w := by
  have fits : Network.sprinkler.bitCount < Bit.maxId := by decide
  have created : Store.create .exact = .ok Store.exact := rfl
  obtain ⟨-, valid⟩ := load_outcome ⟨.exact, .scalar⟩ (DependencyGraph.completedOrder [])
    built_sprinkler fits created
  obtain ⟨-, whole⟩ := valid validate_sprinkler
  rcases graphOf_cases built_sprinkler validate_sprinkler with ⟨parent, -, refused⟩ | ⟨tabled, -⟩
  · cases refused
  · obtain ⟨g, graphed, -, -, loads⟩ := whole tabled
    cases graphed
    obtain ⟨m, w, run, -, -, laidOut⟩ := loads (.refl _)
    exact ⟨built_sprinkler, fits, m, w, run, laidOut⟩

end Model

end BayesDiagram
