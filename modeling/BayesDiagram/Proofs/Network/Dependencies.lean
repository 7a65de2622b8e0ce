import BayesDiagram.Network.EliminationOrder
import BayesDiagram.Network.Network
import BayesDiagram.Proofs.Network.Ancestors
import Mathlib.Data.List.Nodup

/-! The graph of a network has the links that its tables put on the variables, and an order is
accepted if it lists every variable once. -/
namespace BayesDiagram

variable {σ : Type} {g g' : DependencyGraph} {name parent child : String}

namespace DependencyGraph

/-! ### Building a graph -/

theorem mem_names_add : name ∈ (g.add child).names ↔ name ∈ g.names ∨ name = child := by
  rw [add, contains]
  split
  · next known =>
    rw [List.contains_iff_mem] at known
    exact ⟨.inl, fun either => either.elim id fun same => same ▸ known⟩
  · rw [List.mem_append, List.mem_singleton]

theorem nodup_add (nodup : g.names.Nodup) : (g.add child).names.Nodup := by
  rw [add, contains]
  split
  · exact nodup
  · next unknown =>
    rw [List.contains_iff_mem] at unknown
    refine List.nodup_append.mpr ⟨nodup, List.nodup_singleton child, fun first mem other same => ?_⟩
    rw [List.mem_singleton.mp same]
    exact fun equal => unknown (equal ▸ mem)

theorem links_add : (g.add child).links = g.links := by
  rw [add]
  split <;> rfl

theorem foldl_add (names : List String) (nodup : g.names.Nodup) :
    (names.foldl add g).names.Nodup ∧ (names.foldl add g).links = g.links ∧
      ∀ name, name ∈ (names.foldl add g).names ↔ name ∈ g.names ∨ name ∈ names := by
  induction names generalizing g with
  | nil => exact ⟨nodup, rfl, fun name => by simp⟩
  | cons first names ih =>
    obtain ⟨nodup', links, mem⟩ := ih (nodup_add nodup)
    refine ⟨nodup', links.trans links_add, fun name => ?_⟩
    rw [List.foldl_cons, mem, mem_names_add, List.mem_cons, or_assoc]

theorem foldl_add_names {names : List String} (nodup : (g.names ++ names).Nodup) :
    (names.foldl add g).names = g.names ++ names := by
  induction names generalizing g with
  | nil => exact (List.append_nil _).symm
  | cons first names ih =>
    have fresh : first ∉ g.names := fun old =>
      (List.nodup_append.mp nodup).2.2 first old first (.head names) rfl
    have added : (g.add first).names = g.names ++ [first] := by
      rw [add, contains, if_neg (mt List.contains_iff_mem.mp fresh)]
    rw [List.append_cons, ← added] at nodup
    rw [List.foldl_cons, ih nodup, added, List.append_assoc]
    rfl

theorem link_spec (run : (g.link parent child : Except (Error σ) DependencyGraph) = .ok g') :
    g'.names = g.names ∧ parent ∈ g.names ∧ child ∈ g.names ∧
      ∀ link, link ∈ g'.links ↔ link ∈ g.links ∨ link = (parent, child) := by
  obtain ⟨_, parentKnown, run⟩ := bind_eq_ok.mp run
  obtain ⟨_, childKnown, run⟩ := bind_eq_ok.mp run
  rw [require_eq_ok] at parentKnown childKnown
  cases run
  split
  · next old =>
    rw [List.contains_iff_mem] at old
    exact ⟨rfl, parentKnown, childKnown, fun link =>
      ⟨.inl, fun either => either.elim id fun same => same ▸ old⟩⟩
  · exact ⟨rfl, parentKnown, childKnown, fun link => by rw [List.mem_cons, or_comm]⟩

theorem linkAll_spec {parents : List String} (closed : g.Closed)
    (run : (parents.foldlM (fun g parent => g.link parent child) g :
      Except (Error σ) DependencyGraph) = .ok g') :
    g'.names = g.names ∧ g'.Closed ∧
      ∀ link, link ∈ g'.links ↔ link ∈ g.links ∨ link.2 = child ∧ link.1 ∈ parents := by
  induction parents generalizing g with
  | nil =>
    cases run
    exact ⟨rfl, closed, fun link => by simp⟩
  | cons parent parents ih =>
    rw [List.foldlM_cons] at run
    obtain ⟨mid, linked, run⟩ := bind_eq_ok.mp run
    obtain ⟨names, parentKnown, childKnown, links⟩ := link_spec linked
    have closed' : mid.Closed := fun link mem => by
      rw [names]
      rcases (links link).mp mem with old | rfl
      · exact closed link old
      · exact ⟨parentKnown, childKnown⟩
    obtain ⟨names', closed'', links'⟩ := ih closed' run
    refine ⟨names'.trans names, closed'', fun ⟨first, second⟩ => ?_⟩
    simp only [links', links, List.mem_cons, Prod.mk.injEq]
    tauto

theorem linkAll_eq_error {parents : List String} {e : Error σ}
    (failed : parents.foldlM (fun g parent => g.link parent child) g = .error e) :
    ∃ name, (name ∈ parents ∨ name = child) ∧ name ∉ g.names ∧ e = .unknownVariable name := by
  induction parents generalizing g with
  | nil => cases failed
  | cons parent parents ih =>
    rw [List.foldlM_cons] at failed
    rcases bind_eq_error.mp failed with here | ⟨mid, linked, later⟩
    · rcases bind_eq_error.mp here with parentRefused | ⟨_, -, here⟩
      · exact ⟨parent, .inl (.head parents), require_eq_error.mp parentRefused⟩
      · rcases bind_eq_error.mp here with childRefused | ⟨_, -, rest⟩
        · exact ⟨child, .inr rfl, require_eq_error.mp childRefused⟩
        · cases rest
    · obtain ⟨names, -⟩ := link_spec linked
      obtain ⟨name, mem, unknown⟩ := ih later
      exact ⟨name, mem.imp_left (.tail parent), names ▸ unknown⟩

/-! ### Orders -/

theorem go_eq_none {seen order : List String} :
    checkOrder.go g seen order = none ↔ (∀ name ∈ order, name ∈ g.names ∧ name ∉ seen) ∧
      order.Nodup ∧ ∀ name ∈ g.names, name ∈ seen ∨ name ∈ order := by
  induction order generalizing seen with
  | nil => simp [checkOrder.go]
  | cons first order ih =>
    rw [checkOrder.go]
    by_cases known : first ∈ g.names
    · rw [if_neg (by simp [contains, known])]
      by_cases old : first ∈ seen
      · rw [if_pos (List.contains_iff_mem.mpr old)]
        refine iff_of_false (Option.some_ne_none _) fun accepts => ?_
        exact (accepts.1 first (.head order)).2 old
      · rw [if_neg (mt List.contains_iff_mem.mp old), ih, List.nodup_cons, List.forall_mem_cons]
        simp only [List.mem_cons, not_or]
        constructor
        · rintro ⟨fresh, nodup, covers⟩
          refine ⟨⟨⟨known, old⟩, fun name mem => ⟨(fresh name mem).1, (fresh name mem).2.2⟩⟩,
            ⟨fun again => (fresh first again).2.1 rfl, nodup⟩, fun name mem => ?_⟩
          have := covers name mem
          tauto
        · rintro ⟨⟨-, fresh⟩, ⟨new, nodup⟩, covers⟩
          refine ⟨fun name mem => ⟨(fresh name mem).1, fun same => new (same ▸ mem),
            (fresh name mem).2⟩, nodup, fun name mem => ?_⟩
          have := covers name mem
          tauto
    · rw [if_pos (by simp [contains, known])]
      refine iff_of_false (Option.some_ne_none _) fun accepts => ?_
      exact known (accepts.1 first (.head order)).1

theorem checkOrder_eq_ok {order : List String} :
    (g.checkOrder order : Except (Error σ) Unit) = .ok () ↔
      order.Nodup ∧ ∀ name, name ∈ order ↔ name ∈ g.names := by
  have accepts : (g.checkOrder order : Except (Error σ) Unit) = .ok () ↔
      checkOrder.go g [] order = none := by
    rw [checkOrder]
    split
    · next defect found => simp [found]
    · next found => simp [found]
  rw [accepts, go_eq_none]
  simp only [List.not_mem_nil, not_false_eq_true, and_true, false_or]
  exact ⟨fun ⟨known, nodup, covers⟩ => ⟨nodup, fun name => ⟨known name, covers name⟩⟩,
    fun ⟨nodup, same⟩ => ⟨fun name => (same name).mp, nodup, fun name => (same name).mpr⟩⟩

theorem checkOrder_iff_perm {order : List String} (nodup : g.names.Nodup) :
    (g.checkOrder order : Except (Error σ) Unit) = .ok () ↔ order.Perm g.names := by
  rw [checkOrder_eq_ok]
  exact ⟨fun ⟨distinct, same⟩ => (List.perm_ext_iff_of_nodup distinct nodup).mpr same,
    fun perm => ⟨perm.nodup_iff.mpr nodup, fun name => perm.mem_iff⟩⟩

theorem exists_defect {order : List String} (nodup : g.names.Nodup)
    (misordered : ¬order.Perm g.names) :
    ∃ defect, (g.checkOrder order : Except (Error σ) Unit) = .error (.invalidOrder defect) := by
  rw [← checkOrder_iff_perm (σ := σ) nodup, checkOrder] at misordered
  rw [checkOrder]
  split
  · next defect _ => exact ⟨defect, rfl⟩
  · next none =>
    rw [none] at misordered
    exact absurd rfl misordered

end DependencyGraph

namespace Network

open DependencyGraph

theorem linkTables_spec {tables : List (ConditionalTable σ)} (closed : g.Closed)
    (run : (tables.foldlM (fun g t => t.parents.foldlM (fun g parent => g.link parent t.head) g) g :
      Except (Error σ) DependencyGraph) = .ok g') :
    g'.names = g.names ∧ g'.Closed ∧ ∀ parent child, g'.IsParent parent child ↔
      g.IsParent parent child ∨ ∃ t ∈ tables, t.head = child ∧ parent ∈ t.parents := by
  induction tables generalizing g with
  | nil =>
    cases run
    exact ⟨rfl, closed, fun parent child => by simp⟩
  | cons t tables ih =>
    rw [List.foldlM_cons] at run
    obtain ⟨mid, linked, run⟩ := bind_eq_ok.mp run
    obtain ⟨names, closed', links⟩ := linkAll_spec closed linked
    obtain ⟨names', closed'', links'⟩ := ih closed' run
    refine ⟨names'.trans names, closed'', fun parent child => ?_⟩
    rw [links', isParent_iff, links, ← isParent_iff, List.exists_mem_cons_iff, or_assoc,
      @eq_comm _ child]

theorem closed_of_names (names : List String) : (names.foldl add {}).Closed := fun link linked => by
  rw [(foldl_add (g := {}) names List.nodup_nil).2.1] at linked
  exact absurd linked List.not_mem_nil

theorem dependencies_spec {names : List String} {tables : List (ConditionalTable σ)}
    (run : (dependencies names tables : Except (Error σ) DependencyGraph) = .ok g) :
    g.names.Nodup ∧ (∀ name, name ∈ g.names ↔ name ∈ names) ∧ g.Closed ∧
      ∀ parent child, g.IsParent parent child ↔
        ∃ t ∈ tables, t.head = child ∧ parent ∈ t.parents := by
  obtain ⟨nodup, noLinks, mem⟩ := foldl_add (g := {}) names List.nodup_nil
  obtain ⟨same, closed, links⟩ := linkTables_spec (closed_of_names names) run
  refine ⟨same ▸ nodup, fun name => ?_, closed, fun parent child => ?_⟩
  · rw [same, mem]
    exact or_iff_right List.not_mem_nil
  · rw [links, isParent_iff, noLinks]
    exact or_iff_right List.not_mem_nil

theorem names_of_dependencies {names : List String} (nodup : names.Nodup)
    {tables : List (ConditionalTable σ)}
    (run : (dependencies names tables : Except (Error σ) DependencyGraph) = .ok g) :
    g.names = names :=
  (linkTables_spec (closed_of_names names) run).1.trans (foldl_add_names (g := {}) nodup)

theorem dependencies_eq_error {names : List String} {tables : List (ConditionalTable σ)}
    {e : Error σ} (failed : dependencies names tables = .error e) :
    ∃ t ∈ tables, ∃ name, (name ∈ t.parents ∨ name = t.head) ∧ name ∉ names ∧
      e = .unknownVariable name := by
  have mem := (foldl_add (g := {}) names List.nodup_nil).2.2
  suffices refused : ∀ {start : DependencyGraph},
      (∀ name, name ∈ start.names ↔ name ∈ names) → start.Closed →
      tables.foldlM (fun g t => t.parents.foldlM (fun g parent => g.link parent t.head) g) start =
        .error e → ∃ t ∈ tables, ∃ name, (name ∈ t.parents ∨ name = t.head) ∧ name ∉ names ∧
      e = .unknownVariable name from
    refused (fun name => (mem name).trans (or_iff_right List.not_mem_nil)) (closed_of_names names)
      failed
  clear failed mem
  induction tables with
  | nil =>
    intro start known closed failed
    cases failed
  | cons t tables ih =>
    intro start known closed failed
    rw [List.foldlM_cons] at failed
    rcases bind_eq_error.mp failed with here | ⟨mid, linked, later⟩
    · obtain ⟨name, place, unknown, blame⟩ := linkAll_eq_error here
      exact ⟨t, .head tables, name, place, mt (known name).mpr unknown, blame⟩
    · obtain ⟨same, closed', -⟩ := linkAll_spec closed linked
      obtain ⟨t', later, blamed⟩ := ih (fun name => by rw [same, known]) closed' later
      exact ⟨t', .tail t later, blamed⟩

end Network

end BayesDiagram
