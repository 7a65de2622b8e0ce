import BayesDiagram.Proofs.Network.Ancestors
import Mathlib.Data.List.Basic

/-! Graphs without cycles. When the sort succeeds, the order in which the search left the variables
ranks every parent below its children. -/
namespace BayesDiagram

namespace DependencyGraph

variable {σ : Type} {g : DependencyGraph} {name parent child : String}
  {search search' search'' : Search}

def Ranks (g : DependencyGraph) (rank : String → Nat) : Prop :=
  ∀ parent child, g.IsParent parent child → rank parent < rank child

theorem mem_childrenOf : child ∈ g.childrenOf parent ↔ g.IsParent parent child := by
  rw [isParent_iff, childrenOf, List.mem_map]
  constructor
  · rintro ⟨⟨first, second⟩, mem, rfl⟩
    rw [List.mem_filter, beq_iff_eq] at mem
    obtain ⟨mem, rfl⟩ := mem
    exact mem
  · intro mem
    exact ⟨(parent, child), List.mem_filter.mpr ⟨mem, beq_self_eq_true _⟩, rfl⟩

/-- A search that went on: what it found since then is no loop, and it has left all of that. -/
structure Search.Extends (g : DependencyGraph) (search search' : Search) : Prop where
  found : search.found ⊆ search'.found
  left : search.left ⊆ search'.left
  returned : ∀ name ∈ search'.found, name ∈ search.found ∨
    name ∈ search'.left ∧ ¬g.IsParent name name

namespace Search.Extends

theorem refl (search : Search) : search.Extends g search where
  found := fun _ mem => mem
  left := fun _ mem => mem
  returned := fun _ mem => .inl mem

theorem trans (first : search.Extends g search') (second : search'.Extends g search'') :
    search.Extends g search'' where
  found := fun _ mem => second.found (first.found mem)
  left := fun _ mem => second.left (first.left mem)
  returned := fun name mem => by
    rcases second.returned name mem with before | since
    · exact (first.returned name before).imp_right fun ⟨left, loopless⟩ =>
        ⟨second.left left, loopless⟩
    · exact .inr since

theorem foldlM {follow : Search → String → Except String Search} {names : List String}
    (extends' : ∀ {search name search'}, follow search name = .ok search' →
      search.Extends g search') (run : names.foldlM follow search = .ok search') :
    search.Extends g search' := by
  induction names generalizing search with
  | nil =>
    cases run
    exact refl _
  | cons first names ih =>
    rw [List.foldlM_cons] at run
    obtain ⟨mid, followed, run⟩ := bind_eq_ok.mp run
    exact (extends' followed).trans (ih run)

end Search.Extends

theorem descend_extends {depth : Nat} (run : g.descend depth search name = .ok search') :
    search.Extends g search' := by
  induction depth generalizing search name search' with
  | zero =>
    cases run
    exact .refl search
  | succ depth ih =>
    rw [descend] at run
    split at run
    · cases run
      exact .refl search
    · split at run
      · cases run
      · next loopless =>
        obtain ⟨below, followed, run⟩ := bind_eq_ok.mp run
        cases run
        have inner := Search.Extends.foldlM ih followed
        refine ⟨fun other mem => inner.found (.tail _ mem), fun other mem =>
          .tail _ (inner.left mem), fun other mem => ?_⟩
        rcases inner.returned other mem with before | ⟨left, loopless'⟩
        · rcases List.mem_cons.mp before with rfl | old
          · refine .inr ⟨.head _, fun loop => loopless ?_⟩
            exact List.contains_iff_mem.mpr (mem_childrenOf.mpr loop)
          · exact .inl old
        · exact .inr ⟨.tail _ left, loopless'⟩

theorem mem_found_of_descend {depth : Nat}
    (run : g.descend (depth + 1) search name = .ok search') : name ∈ search'.found := by
  rw [descend] at run
  split at run
  · next old =>
    cases run
    exact List.contains_iff_mem.mp old
  · split at run
    · cases run
    · obtain ⟨below, followed, run⟩ := bind_eq_ok.mp run
      cases run
      exact (Search.Extends.foldlM descend_extends followed).found (.head _)

theorem mem_found_of_foldlM {depth : Nat} {names : List String}
    (run : names.foldlM (g.descend (depth + 1)) search = .ok search') (mem : name ∈ names) :
    name ∈ search'.found := by
  induction names generalizing search with
  | nil => exact absurd mem List.not_mem_nil
  | cons first names ih =>
    rw [List.foldlM_cons] at run
    obtain ⟨mid, followed, rest⟩ := bind_eq_ok.mp run
    rcases List.mem_cons.mp mem with rfl | later
    · exact (Search.Extends.foldlM descend_extends rest).found (mem_found_of_descend followed)
    · exact ih rest later

theorem leavingOrder_spec {order : List String} (run : g.leavingOrder = .ok order)
    (mem : name ∈ g.names) : name ∈ order ∧ ¬g.IsParent name name := by
  obtain ⟨search, searched, rfl⟩ := map_eq_ok.mp run
  refine ((Search.Extends.foldlM descend_extends searched).returned name ?_).resolve_left
    List.not_mem_nil
  obtain ⟨depth, size⟩ : ∃ depth, g.size = depth + 1 :=
    Nat.exists_eq_succ_of_ne_zero (Nat.ne_of_gt (List.length_pos_of_mem mem))
  exact mem_found_of_foldlM (size ▸ searched) mem

theorem idxOf_le_of_misplacedParent? {before order : List String}
    (none : g.misplacedParent? before order = none) (listed : child ∈ order)
    (isParent : g.IsParent parent child) :
    parent ∈ before ∨ order.idxOf parent ≤ order.idxOf child := by
  induction order generalizing before with
  | nil => exact absurd listed List.not_mem_nil
  | cons first order ih =>
    by_cases leads : first = parent
    · rw [leads, List.idxOf_cons_self]
      exact .inr (Nat.zero_le _)
    rw [misplacedParent?] at none
    split at none
    · cases none
    · next placed =>
      by_cases here : first = child
      · subst here
        rw [List.getLast?_eq_none_iff, List.filter_eq_nil_iff] at placed
        have known := placed parent isParent
        simp only [List.contains_cons, Bool.not_eq_true', Bool.not_eq_false, Bool.or_eq_true,
          beq_iff_eq, List.contains_iff_mem] at known
        exact .inl (known.resolve_left (Ne.symm leads))
      · rw [List.idxOf_cons_ne _ leads, List.idxOf_cons_ne _ here]
        rcases ih none ((List.mem_cons.mp listed).resolve_left (Ne.symm here)) with old | inOrder
        · exact .inl ((List.mem_cons.mp old).resolve_left (Ne.symm leads))
        · exact .inr (Nat.succ_le_succ inOrder)

theorem toposort_eq_ok {order : List String} : g.toposort = .ok order ↔
    g.leavingOrder = .ok order ∧ g.misplacedParent? [] order = none := by
  rw [toposort, bind_eq_ok]
  constructor
  · rintro ⟨found, left, checked⟩
    cases placed : g.misplacedParent? [] found with
    | some name => simp [placed, throw, throwThe, MonadExceptOf.throw] at checked
    | none =>
      rw [placed] at checked
      cases checked
      exact ⟨left, placed⟩
  · rintro ⟨left, placed⟩
    exact ⟨order, left, by rw [placed]; rfl⟩

theorem ranks_of_toposort (closed : g.Closed) {order : List String}
    (sorted : g.toposort = .ok order) : g.Ranks order.idxOf := by
  obtain ⟨left, placed⟩ := toposort_eq_ok.mp sorted
  intro parent child isParent
  have known : parent ∈ g.names ∧ child ∈ g.names := closed _ (isParent_iff.mp isParent)
  obtain ⟨parentListed, loopless⟩ := leavingOrder_spec left known.1
  obtain ⟨childListed, -⟩ := leavingOrder_spec left known.2
  have inOrder := (idxOf_le_of_misplacedParent? placed childListed isParent).resolve_left
    List.not_mem_nil
  refine Nat.lt_of_le_of_ne inOrder fun same => loopless ?_
  obtain rfl := (List.idxOf_inj parentListed).mp same
  exact isParent

theorem checkAcyclicWith_eq_ok {sort : Toposort} :
    (g.checkAcyclicWith sort : Except (Error σ) Unit) = .ok () ↔ ∃ order, sort g = .ok order := by
  rw [checkAcyclicWith]
  cases sort g <;> simp

end DependencyGraph

end BayesDiagram
