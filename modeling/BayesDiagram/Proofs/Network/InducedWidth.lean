import BayesDiagram.Proofs.Network.Ancestors
import Mathlib.Combinatorics.SimpleGraph.Clique
import Mathlib.Combinatorics.SimpleGraph.DeleteEdges
import Mathlib.Data.Set.Card

/-! Induced width. To eliminate a vertex is to join its neighbours pairwise and to take it out,
unless it is kept. Along an order, the induced width is the largest number of vertices that a vertex
makes up with its neighbours when its turn comes; every clique of the graph counts in full, at the
turn of its first vertex. -/
namespace BayesDiagram

/-- The moral graph of a dependency graph within some of its variables: two of them are adjacent if
one is a parent of the other or if they have a child in common there. -/
def DependencyGraph.moralWithin (g : DependencyGraph) (names : NameSet) :
    SimpleGraph String where
  Adj a b := a ≠ b ∧ a ∈ names ∧ b ∈ names ∧ (g.IsParent a b ∨ g.IsParent b a ∨
    ∃ child ∈ names, g.IsParent a child ∧ g.IsParent b child)
  symm := ⟨by
    rintro a b ⟨differ, first, second, parent | child | ⟨common, mem, left, right⟩⟩
    · exact ⟨differ.symm, second, first, .inr (.inl parent)⟩
    · exact ⟨differ.symm, second, first, .inl child⟩
    · exact ⟨differ.symm, second, first, .inr (.inr ⟨common, mem, right, left⟩)⟩⟩
  loopless := ⟨fun _ related => related.1 rfl⟩

variable {G : SimpleGraph String} {kept : NameSet} {x a b : String}

def joinNeighbours (G : SimpleGraph String) (x : String) : SimpleGraph String where
  Adj a b := G.Adj a b ∨ a ≠ b ∧ G.Adj x a ∧ G.Adj x b
  symm := ⟨fun _ _ related =>
    related.imp (·.symm) fun ⟨differ, first, second⟩ => ⟨differ.symm, second, first⟩⟩
  loopless := ⟨fun _ related => related.elim G.irrefl fun joined => joined.1 rfl⟩

/-- Joins the neighbours of a vertex pairwise and removes the vertex unless it is kept. -/
def eliminate (kept : NameSet) (G : SimpleGraph String) (x : String) : SimpleGraph String :=
  if x ∈ kept then joinNeighbours G x else (joinNeighbours G x).deleteIncidenceSet x

/-- The largest number of vertices that a vertex of the order makes up with its neighbours just
before it is eliminated. -/
noncomputable def inducedWidth (kept : NameSet) : List String → SimpleGraph String → Nat
  | [], _ => 0
  | x :: order, G =>
    max (insert x (G.neighborSet x)).ncard (inducedWidth kept order (eliminate kept G x))

theorem eliminate_adj : (eliminate kept G x).Adj a b ↔
    (G.Adj a b ∨ a ≠ b ∧ G.Adj x a ∧ G.Adj x b) ∧ (x ∈ kept ∨ a ≠ x ∧ b ≠ x) := by
  rw [eliminate]
  split
  · next here => exact (and_iff_left (.inl here)).symm
  · next gone =>
    rw [SimpleGraph.deleteIncidenceSet_adj, or_iff_right gone]
    rfl

theorem finite_neighborSet_eliminate (finite : ∀ a, (G.neighborSet a).Finite) (a : String) :
    ((eliminate kept G x).neighborSet a).Finite := by
  refine ((finite a).union (finite x)).subset fun b adjacent => ?_
  rcases (eliminate_adj.mp adjacent).1 with old | ⟨-, -, joined⟩
  · exact .inl old
  · exact .inr joined

theorem ncard_le_inducedWidth {clique : Set String} {order : List String}
    (finite : ∀ a, (G.neighborSet a).Finite) (isClique : G.IsClique clique)
    (ordered : ∀ a ∈ clique, a ∈ order) : clique.ncard ≤ inducedWidth kept order G := by
  induction order generalizing G with
  | nil =>
    have empty : clique = ∅ := Set.eq_empty_iff_forall_notMem.mpr fun a mem =>
      List.not_mem_nil (ordered a mem)
    rw [empty, Set.ncard_empty]
    exact Nat.zero_le _
  | cons x order ih =>
    rw [inducedWidth]
    by_cases first : x ∈ clique
    · refine Nat.le_trans (Set.ncard_le_ncard (fun a mem => ?_) ((finite x).insert x))
        (Nat.le_max_left _ _)
      by_cases same : a = x
      · exact .inl same
      · exact .inr (isClique first mem (Ne.symm same))
    · -- the clique outlives the elimination of a vertex that is not in it
      have other {a : String} (mem : a ∈ clique) : a ≠ x := fun same => first (same ▸ mem)
      refine Nat.le_trans (ih (finite_neighborSet_eliminate finite) ?_ ?_) (Nat.le_max_right _ _)
      · exact fun a memA b memB differ =>
          eliminate_adj.mpr ⟨.inl (isClique memA memB differ), .inr ⟨other memA, other memB⟩⟩
      · exact fun a mem => (List.mem_cons.mp (ordered a mem)).resolve_left (other mem)

end BayesDiagram
