import BayesDiagram.Proofs.Network.Acyclic
import BayesDiagram.Proofs.Network.InducedWidth

/-! Forests. A graph is rooted by a rank if adjacent vertices differ in rank and no vertex has two
neighbours of lower rank; the moral graph of variables with one parent each is rooted. An order
peels a graph if every vertex has at most one neighbour that comes after it, and then the induced
width counts a vertex, that neighbour and what is kept. -/
namespace BayesDiagram

variable {G H : SimpleGraph String} {rank : String → Nat} {kept : NameSet} {x : String}
  {order order' : List String}

structure Rooted (G : SimpleGraph String) (rank : String → Nat) : Prop where
  differ : ∀ a b, G.Adj a b → rank a ≠ rank b
  parent : ∀ a b c, G.Adj a b → G.Adj a c → rank b < rank a → rank c < rank a → b = c

namespace Rooted

theorem mono (rooted : Rooted G rank) (le : H ≤ G) : Rooted H rank where
  differ a b adjacent := rooted.differ a b (le adjacent)
  parent a b c first second := rooted.parent a b c (le first) (le second)

theorem subsingleton_of_top (rooted : Rooted G rank) (top : ∀ a, G.Adj x a → rank a ≤ rank x) :
    (G.neighborSet x).Subsingleton := by
  intro a first b second
  have below (c : String) (adjacent : G.Adj x c) : rank c < rank x :=
    Nat.lt_of_le_of_ne (top c adjacent) (rooted.differ x c adjacent).symm
  exact rooted.parent x a b first second (below a first) (below b second)

theorem subsingleton_of_isClique (rooted : Rooted G rank)
    (isClique : G.IsClique (G.neighborSet x)) :
    (G.neighborSet x).Subsingleton := by
  intro a first b second
  by_contra apart
  have first : G.Adj x a := first
  have second : G.Adj x b := second
  have third : G.Adj a b := isClique first second apart
  have differ := rooted.differ x a first
  have differ' := rooted.differ x b second
  have differ'' := rooted.differ a b third
  rcases Nat.lt_or_gt_of_ne differ with above | below
  · rcases Nat.lt_or_gt_of_ne differ'' with top | top
    · exact first.ne (rooted.parent b x a second.symm third.symm (above.trans top) top)
    · exact second.ne (rooted.parent a x b first.symm third above top)
  · rcases Nat.lt_or_gt_of_ne differ' with top | top
    · exact first.ne (rooted.parent b x a second.symm third.symm top (below.trans top))
    · exact third.ne (rooted.parent x a b first second below top)

end Rooted

theorem DependencyGraph.moralWithin_mono {g : DependencyGraph} {names names' : NameSet}
    (subset : ∀ name ∈ names, name ∈ names') : g.moralWithin names ≤ g.moralWithin names' := by
  rintro a b ⟨differ, first, second, related⟩
  refine ⟨differ, subset a first, subset b second, related.imp_right fun up => up.imp_right ?_⟩
  exact fun ⟨child, mem, parents⟩ => ⟨child, subset child mem, parents⟩

theorem DependencyGraph.rooted_moralWithin {g : DependencyGraph} (ranks : g.Ranks rank)
    (single : ∀ parent parent' child, g.IsParent parent child → g.IsParent parent' child →
      parent = parent') (names : NameSet) :
    Rooted (g.moralWithin names) rank := by
  have isLink {a b : String} (adjacent : (g.moralWithin names).Adj a b) :
      g.IsParent a b ∨ g.IsParent b a := by
    obtain ⟨differ, -, -, parent | child | ⟨common, -, first, second⟩⟩ := adjacent
    · exact .inl parent
    · exact .inr child
    · exact absurd (single a b common first second) differ
  have isParent {a b : String} (adjacent : (g.moralWithin names).Adj a b)
      (below : rank b < rank a) : g.IsParent b a :=
    (isLink adjacent).resolve_left fun up => Nat.lt_asymm below (ranks a b up)
  exact
    { differ := fun a b adjacent => (isLink adjacent).elim
        (fun down => Nat.ne_of_lt (ranks a b down)) fun up => Nat.ne_of_gt (ranks b a up)
      parent := fun a b c first second belowFirst belowSecond =>
        single b c a (isParent first belowFirst) (isParent second belowSecond) }

theorem eliminate_adj_of_subsingleton (leaf : (G.neighborSet x).Subsingleton) {a b : String} :
    (eliminate kept G x).Adj a b ↔ G.Adj a b ∧ (x ∈ kept ∨ a ≠ x ∧ b ≠ x) := by
  rw [eliminate_adj, or_iff_left]
  rintro ⟨differ, first, second⟩
  exact differ (leaf first second)

/-- Every vertex has at most one neighbour that comes after it. -/
def Peels (G : SimpleGraph String) : List String → Prop
  | [] => True
  | x :: order => {a | a ∈ order ∧ G.Adj x a}.Subsingleton ∧ Peels G order

theorem Peels.congr (peels : Peels G order)
    (le : ∀ a ∈ order, ∀ b ∈ order, H.Adj a b → G.Adj a b) : Peels H order := by
  induction order with
  | nil => trivial
  | cons x order ih =>
    refine ⟨peels.1.anti fun a ⟨mem, adjacent⟩ => ?_,
      ih peels.2 fun a memA b memB => le a (.tail x memA) b (.tail x memB)⟩
    exact ⟨mem, le x (.head order) a (.tail x mem) adjacent⟩

theorem Peels.sublist (peels : Peels G order) (sublist : order'.Sublist order) :
    Peels G order' := by
  induction sublist with
  | slnil => trivial
  | cons x _ ih => exact ih peels.2
  | cons_cons x below ih =>
    exact ⟨peels.1.anti fun a ⟨mem, adjacent⟩ => ⟨below.subset mem, adjacent⟩, ih peels.2⟩

theorem ncard_neighbours_le (single : {a | a ∈ order ∧ G.Adj x a}.Subsingleton)
    (inside : ∀ a, G.Adj x a → a ∈ x :: order ∨ a ∈ kept) :
    (insert x (G.neighborSet x)).ncard ≤ 2 + {name | name ∈ kept}.ncard := by
  have finite : {name | name ∈ kept}.Finite :=
    (kept.toList.finite_toSet).subset fun _ mem => Std.ExtTreeSet.mem_toList.mpr mem
  have covered : insert x (G.neighborSet x) ⊆
      insert x ({a | a ∈ order ∧ G.Adj x a} ∪ {name | name ∈ kept}) := by
    refine Set.insert_subset_insert fun a adjacent => ?_
    have adjacent : G.Adj x a := adjacent
    rcases inside a adjacent with ordered | kept
    · exact .inl ⟨(List.mem_cons.mp ordered).resolve_left adjacent.ne', adjacent⟩
    · exact .inr kept
  have one : {a | a ∈ order ∧ G.Adj x a}.ncard ≤ 1 :=
    (Set.ncard_le_one single.finite).mpr fun _ here _ there => single here there
  calc (insert x (G.neighborSet x)).ncard
      ≤ (insert x ({a | a ∈ order ∧ G.Adj x a} ∪ {name | name ∈ kept})).ncard :=
        Set.ncard_le_ncard covered ((single.finite.union finite).insert x)
    _ ≤ ({a | a ∈ order ∧ G.Adj x a} ∪ {name | name ∈ kept}).ncard + 1 := Set.ncard_insert_le _ _
    _ ≤ {a | a ∈ order ∧ G.Adj x a}.ncard + {name | name ∈ kept}.ncard + 1 :=
        Nat.add_le_add_right (Set.ncard_union_le _ _) 1
    _ ≤ 2 + {name | name ∈ kept}.ncard := by omega

/-- The induced width of an order that peels a graph. The links of the graph among the vertices
still to come never change, and the rest of it leads to what is kept. -/
theorem inducedWidth_le_of_peels (peels : Peels G order)
    (inside : ∀ a b, G.Adj a b → b ∈ order ∨ b ∈ kept) :
    inducedWidth kept order G ≤ 2 + {name | name ∈ kept}.ncard := by
  induction order generalizing G with
  | nil => exact Nat.zero_le _
  | cons x order ih =>
    obtain ⟨single, later⟩ := peels
    rw [inducedWidth]
    refine Nat.max_le.mpr ⟨ncard_neighbours_le single (inside x), ih (later.congr ?_) ?_⟩
    · intro a memA b memB adjacent
      rcases (eliminate_adj.mp adjacent).1 with old | ⟨differ, first, second⟩
      · exact old
      · exact absurd (single ⟨memA, first⟩ ⟨memB, second⟩) differ
    · intro a b adjacent
      obtain ⟨related, survives⟩ := eliminate_adj.mp adjacent
      have before : b ∈ x :: order ∨ b ∈ kept :=
        related.elim (inside a b) fun joined => inside x b joined.2.2
      simp only [List.mem_cons] at before
      rcases before with (rfl | ordered) | mem
      · exact .inr (survives.resolve_right fun others => others.2 rfl)
      · exact .inl ordered
      · exact .inr mem

end BayesDiagram
