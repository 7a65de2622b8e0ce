import BayesDiagram.Network.EliminationOrder
import BayesDiagram.Proofs.Network.InducedWidth
import BayesDiagram.Proofs.Network.Names

/-! Tables of neighbourhoods. Links are entered under both of their ends, so a table represents a
graph between its names; to take a name out of the table is to eliminate the vertex, and the table
that elimination orders start from represents the moral graph. -/
namespace BayesDiagram

namespace Neighbourhoods

variable {g : Neighbourhoods} {G : SimpleGraph String} {a b x y name : String}
  {names : List String}

/-! ### Entries -/

theorem neighbours_insert (set : NameSet) :
    neighbours (g.insert a set) x = if x = a then set else g.neighbours x := by
  rw [neighbours, Std.ExtTreeMap.getD_insert]
  simp only [Std.LawfulEqOrd.compare_eq_iff_eq, @eq_comm _ a x]
  rfl

theorem neighbours_erase : neighbours (g.erase a) x = if x = a then ∅ else g.neighbours x := by
  rw [neighbours, Std.ExtTreeMap.getD_erase]
  simp only [Std.LawfulEqOrd.compare_eq_iff_eq, @eq_comm _ a x]
  rfl

theorem mem_insert {set : NameSet} : x ∈ g.insert a set ↔ x = a ∨ x ∈ g := by
  rw [Std.ExtTreeMap.mem_insert, Std.LawfulEqOrd.compare_eq_iff_eq, eq_comm]

theorem mem_erase : x ∈ g.erase a ↔ x ≠ a ∧ x ∈ g := by
  rw [Std.ExtTreeMap.mem_erase, ne_eq, Std.LawfulEqOrd.compare_eq_iff_eq, eq_comm]

/-! ### Links -/

theorem mem_neighbours_link : y ∈ (g.link a b).neighbours x ↔
    y ∈ g.neighbours x ∨ a ≠ b ∧ (x = a ∧ y = b ∨ x = b ∧ y = a) := by
  rw [link]
  split
  · next same => simp [same]
  · next differ =>
    dsimp only
    rw [neighbours_insert, neighbours_insert, neighbours_insert, if_neg (Ne.symm differ)]
    by_cases isSecond : x = b
    · subst isSecond
      rw [if_pos rfl, NameSet.mem_insert]
      have := Ne.symm differ
      tauto
    · rw [if_neg isSecond]
      by_cases isFirst : x = a
      · subst isFirst
        rw [if_pos rfl, NameSet.mem_insert]
        tauto
      · rw [if_neg isFirst]
        tauto

theorem mem_link : x ∈ g.link a b ↔ x ∈ g ∨ a ≠ b ∧ (x = a ∨ x = b) := by
  rw [link]
  split
  · next same => simp [same]
  · next differ =>
    dsimp only
    rw [mem_insert, mem_insert]
    tauto

theorem mem_neighbours_foldl_link : y ∈ (names.foldl (link · name) g).neighbours x ↔
    y ∈ g.neighbours x ∨ x ≠ y ∧ (x = name ∧ y ∈ names ∨ x ∈ names ∧ y = name) := by
  induction names generalizing g with
  | nil => simp
  | cons other names ih =>
    rw [List.foldl_cons, ih, mem_neighbours_link, List.mem_cons, List.mem_cons]
    grind

theorem mem_foldl_link (known : ∀ other ∈ name :: names, other ∈ g) :
    x ∈ names.foldl (link · name) g ↔ x ∈ g := by
  induction names generalizing g with
  | nil => rfl
  | cons other names ih =>
    have linked {x : String} : x ∈ g.link name other ↔ x ∈ g := by
      rw [mem_link, or_iff_left_of_imp]
      rintro ⟨-, rfl | rfl⟩
      · exact known _ (.head _)
      · exact known _ (.tail _ (.head _))
    rw [List.foldl_cons, ih fun another mem => linked.mpr (known another ?_), linked]
    rcases List.mem_cons.mp mem with rfl | later
    · exact .head _
    · exact .tail _ (.tail _ later)

theorem mem_neighbours_connect : y ∈ (g.connect names).neighbours x ↔
    y ∈ g.neighbours x ∨ x ≠ y ∧ x ∈ names ∧ y ∈ names := by
  induction names generalizing g with
  | nil => simp [connect]
  | cons name names ih =>
    rw [connect, ih, mem_neighbours_foldl_link, List.mem_cons, List.mem_cons]
    grind

theorem mem_connect (known : ∀ other ∈ names, other ∈ g) : x ∈ g.connect names ↔ x ∈ g := by
  induction names generalizing g with
  | nil => rfl
  | cons name names ih =>
    have linked {other : String} := mem_foldl_link (x := other) known
    rw [connect, ih fun other mem => linked.mpr (known other (.tail name mem)), linked]

/-! ### Eliminations -/

def unlink (name : String) (g : Neighbourhoods) (other : String) : Neighbourhoods :=
  g.insert other ((g.neighbours other).erase name)

theorem eliminate_eq : g.eliminate name = connect
    ((g.neighbours name).toList.foldl (unlink name) (g.erase name)) (g.neighbours name).toList :=
  rfl

theorem mem_neighbours_foldl_unlink : y ∈ (names.foldl (unlink name) g).neighbours x ↔
    y ∈ g.neighbours x ∧ (x ∈ names → y ≠ name) := by
  induction names generalizing g with
  | nil => simp
  | cons other names ih =>
    rw [List.foldl_cons, ih, unlink, neighbours_insert, List.mem_cons]
    by_cases here : x = other
    · subst here
      rw [if_pos rfl, NameSet.mem_erase]
      tauto
    · rw [if_neg here]
      tauto

theorem mem_foldl_unlink : x ∈ names.foldl (unlink name) g ↔ x ∈ g ∨ x ∈ names := by
  induction names generalizing g with
  | nil => simp
  | cons other names ih =>
    rw [List.foldl_cons, ih, unlink, mem_insert, List.mem_cons]
    tauto

/-- The entries of a table are the edges of a graph between its names. -/
structure Represents (g : Neighbourhoods) (G : SimpleGraph String) : Prop where
  adj : ∀ a b, b ∈ g.neighbours a ↔ G.Adj a b
  known : ∀ a b, G.Adj a b → a ∈ g

namespace Represents

theorem mem_toList (represents : g.Represents G) :
    b ∈ (g.neighbours a).toList ↔ G.Adj a b := by
  rw [Std.ExtTreeSet.mem_toList, represents.adj]

theorem mem_eliminate (represents : g.Represents G) : a ∈ g.eliminate x ↔ a ≠ x ∧ a ∈ g := by
  rw [eliminate_eq, mem_connect fun other mem => mem_foldl_unlink.mpr (.inr mem), mem_foldl_unlink,
    mem_erase, represents.mem_toList, or_iff_left_of_imp]
  exact fun adjacent => ⟨adjacent.ne', represents.known a x adjacent.symm⟩

theorem eliminate (represents : g.Represents G) (x : String) :
    (g.eliminate x).Represents (BayesDiagram.eliminate ∅ G x) := by
  have adj (a b : String) :
      b ∈ (g.eliminate x).neighbours a ↔ (BayesDiagram.eliminate ∅ G x).Adj a b := by
    rw [eliminate_eq, mem_neighbours_connect, mem_neighbours_foldl_unlink, neighbours_erase,
      represents.mem_toList, represents.mem_toList, eliminate_adj,
      or_iff_right Std.ExtTreeSet.not_mem_empty]
    by_cases gone : a = x
    · subst gone
      simp
    · -- an entry that has the name is that of a neighbour, which loses it
      rw [if_neg gone, represents.adj]
      have back : G.Adj a x ↔ G.Adj x a := G.adj_comm a x
      have loopless : ¬G.Adj x x := G.irrefl
      grind
  refine ⟨adj, fun a b adjacent => represents.mem_eliminate.mpr ?_⟩
  obtain ⟨related, survives⟩ := eliminate_adj.mp adjacent
  refine ⟨(survives.resolve_left Std.ExtTreeSet.not_mem_empty).1, ?_⟩
  rcases related with old | ⟨-, first, -⟩
  · exact represents.known a b old
  · exact represents.known a x first.symm

end Represents

/-! ### The moral graph -/

variable {family : String → List String}

theorem mem_neighbours_foldl_connect :
    y ∈ (names.foldl (fun g child => connect g (family child)) g).neighbours x ↔
      y ∈ g.neighbours x ∨ x ≠ y ∧ ∃ child ∈ names, x ∈ family child ∧ y ∈ family child := by
  induction names generalizing g with
  | nil => simp
  | cons child names ih =>
    rw [List.foldl_cons, ih, mem_neighbours_connect, List.exists_mem_cons_iff]
    tauto

theorem mem_foldl_connect (known : ∀ child ∈ names, ∀ other ∈ family child, other ∈ g) :
    x ∈ names.foldl (fun g child => connect g (family child)) g ↔ x ∈ g := by
  induction names generalizing g with
  | nil => rfl
  | cons child names ih =>
    have connected {other : String} := mem_connect (x := other) (known child (.head names))
    rw [List.foldl_cons, ih fun later mem other inFamily =>
      connected.mpr (known later (.tail child mem) other inFamily), connected]

def unlinked (names : List String) : Neighbourhoods :=
  .ofList (names.map (·, ∅))

theorem mem_unlinked : x ∈ unlinked names ↔ x ∈ names := by
  rw [unlinked, Std.ExtTreeMap.mem_ofList, List.contains_iff_mem, List.map_map]
  simp

theorem neighbours_unlinked (nodup : names.Nodup) : (unlinked names).neighbours x = ∅ := by
  by_cases mem : x ∈ names
  · refine Std.ExtTreeMap.getD_ofList_of_mem Std.ReflCmp.compare_self ?_
      (List.mem_map_of_mem mem)
    rw [List.pairwise_map]
    exact nodup.imp fun differ same => differ (Std.LawfulEqOrd.compare_eq_iff_eq.mp same)
  · exact Std.ExtTreeMap.getD_eq_fallback (mt mem_unlinked.mp mem)

end Neighbourhoods

namespace DependencyGraph

open Neighbourhoods

variable {g : DependencyGraph} {name : String}

theorem moralGraph_eq : g.moralGraph =
    g.names.foldl (fun m name => m.connect (name :: g.parentsOf name)) (unlinked g.names) :=
  rfl

theorem mem_moralGraph (closed : g.Closed) : name ∈ g.moralGraph ↔ name ∈ g.names := by
  rw [moralGraph_eq, mem_foldl_connect, mem_unlinked]
  intro child mem other inFamily
  rw [mem_unlinked]
  rcases List.mem_cons.mp inFamily with rfl | isParent
  · exact mem
  · exact (closed _ (isParent_iff.mp isParent)).1

theorem represents_moralGraph (nodup : g.names.Nodup) (closed : g.Closed) :
    g.moralGraph.Represents (g.moralWithin (.ofList g.names)) := by
  have adj (a b : String) :
      b ∈ g.moralGraph.neighbours a ↔ (g.moralWithin (.ofList g.names)).Adj a b := by
    rw [moralGraph_eq, mem_neighbours_foldl_connect, neighbours_unlinked nodup,
      or_iff_right Std.ExtTreeSet.not_mem_empty]
    refine and_congr_right fun differ => ?_
    simp only [NameSet.mem_ofList, List.mem_cons]
    have known {parent child : String} (isParent : g.IsParent parent child) : parent ∈ g.names :=
      (closed _ (isParent_iff.mp isParent)).1
    constructor
    · rintro ⟨child, mem, rfl | first, rfl | second⟩
      · exact absurd rfl differ
      · exact ⟨mem, known second, .inr (.inl second)⟩
      · exact ⟨known first, mem, .inl first⟩
      · exact ⟨known first, known second, .inr (.inr ⟨child, mem, first, second⟩)⟩
    · rintro ⟨memFirst, memSecond, parent | child | ⟨common, mem, first, second⟩⟩
      · exact ⟨b, memSecond, .inr parent, .inl rfl⟩
      · exact ⟨a, memFirst, .inl rfl, .inr child⟩
      · exact ⟨common, mem, .inr first, .inr second⟩
  refine ⟨adj, fun a b adjacent => (mem_moralGraph closed).mpr ?_⟩
  exact NameSet.mem_ofList.mp adjacent.2.1

end DependencyGraph

end BayesDiagram
