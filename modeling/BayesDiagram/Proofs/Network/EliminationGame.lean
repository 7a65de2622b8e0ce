import BayesDiagram.Proofs.Network.Growth
import BayesDiagram.Proofs.Network.MinFill
import Mathlib.Combinatorics.SimpleGraph.Paths
import Mathlib.Data.Prod.Lex
import Mathlib.Data.String.Basic
import Mathlib.Data.Sym.Sym2

/-! The elimination game on the moral graph. What eliminations have made of a graph is read off the
graph itself: vertices that are left are adjacent if a path joins them through eliminated ones. The
min-fill order is the one that goes through all variables and at every turn takes the one that costs
least there, by fill-in, degree and name. -/
namespace BayesDiagram

variable {G : SimpleGraph String} {gone : List String} {a b x y : String}

/-! ### Paths through eliminated vertices -/

/-- The graph of the vertices that are left, two of which are adjacent if a path joins them whose
inner vertices are all eliminated. -/
def joinedThrough (G : SimpleGraph String) (gone : List String) : SimpleGraph String where
  Adj a b := a ≠ b ∧ a ∉ gone ∧ b ∉ gone ∧
    ∃ path : G.Walk a b, path.IsPath ∧ ∀ v ∈ path.support, v ≠ a → v ≠ b → v ∈ gone
  symm := ⟨by
    rintro a b ⟨differ, left, left', path, isPath, inner⟩
    refine ⟨differ.symm, left', left, path.reverse, isPath.reverse, fun v mem first second => ?_⟩
    rw [SimpleGraph.Walk.support_reverse, List.mem_reverse] at mem
    exact inner v mem second first⟩
  loopless := ⟨fun _ related => related.1 rfl⟩

theorem joinedThrough_of_walk (differ : a ≠ b) (left : a ∉ gone) (left' : b ∉ gone)
    (walk : G.Walk a b) (inner : ∀ v ∈ walk.support, v ≠ a → v ≠ b → v ∈ gone) :
    (joinedThrough G gone).Adj a b :=
  ⟨differ, left, left', walk.bypass, walk.bypass_isPath, fun v mem =>
    inner v (walk.support_bypass_subset_support mem)⟩

theorem joinedThrough_nil (G : SimpleGraph String) : joinedThrough G [] = G := by
  ext a b
  constructor
  · rintro ⟨differ, -, -, path, isPath, inner⟩
    cases path with
    | nil => exact absurd rfl differ
    | @cons _ c _ adjacent path =>
      -- the second vertex of the path is no inner one
      rw [SimpleGraph.Walk.cons_isPath_iff] at isPath
      by_cases last : c = b
      · exact last ▸ adjacent
      · have first : c ≠ a := adjacent.ne'
        have mem : c ∈ (SimpleGraph.Walk.cons adjacent path).support :=
          List.mem_cons_of_mem _ path.start_mem_support
        exact absurd (inner c mem first last) List.not_mem_nil
  · intro adjacent
    refine joinedThrough_of_walk adjacent.ne List.not_mem_nil List.not_mem_nil adjacent.toWalk ?_
    intro v mem first second
    rcases List.mem_cons.mp mem with rfl | rest
    · exact absurd rfl first
    · exact absurd (List.mem_singleton.mp rest) second

theorem joinedThrough_takeUntil {path : G.Walk a b} (isPath : path.IsPath) (left : a ∉ gone)
    (kept : x ∉ gone) (mem : x ∈ path.support) (notFirst : a ≠ x) (notLast : b ≠ x)
    (inner : ∀ v ∈ path.support, v ≠ a → v ≠ b → v ∈ gone ++ [x]) :
    (joinedThrough G gone).Adj x a := by
  have sub := path.support_takeUntil_subset_support mem
  refine (joinedThrough_of_walk notFirst left kept (path.takeUntil x mem) ?_).symm
  intro v inPath first second
  have notEnd : v ≠ b := fun same =>
    SimpleGraph.Walk.endpoint_notMem_support_takeUntil isPath mem notLast (same ▸ inPath)
  exact (List.mem_append.mp (inner v (sub inPath) first notEnd)).resolve_right
    fun here => second (List.mem_singleton.mp here)

/-- To eliminate one more vertex is to let paths go through it. -/
theorem eliminate_joinedThrough (G : SimpleGraph String) (gone : List String) (x : String) :
    eliminate ∅ (joinedThrough G gone) x = joinedThrough G (gone ++ [x]) := by
  ext a b
  rw [eliminate_adj, or_iff_right Std.ExtTreeSet.not_mem_empty]
  constructor
  · rintro ⟨⟨differ, left, left', path, -, inner⟩ |
      ⟨differ, ⟨-, -, left, toFirst, -, inner⟩, -, -, left', toSecond, -, inner'⟩, notFirst,
      notSecond⟩
    · refine joinedThrough_of_walk differ (by simp [left, notFirst]) (by simp [left', notSecond])
        path fun v mem first second => ?_
      exact List.mem_append_left _ (inner v mem first second)
    · -- joined by the elimination: the paths to the two neighbours of `x` make up a walk
      refine joinedThrough_of_walk differ (by simp [left, notFirst]) (by simp [left', notSecond])
        (toFirst.reverse.append toSecond) fun v mem first second => ?_
      rw [List.mem_append, List.mem_singleton]
      by_cases here : v = x
      · exact .inr here
      · rw [SimpleGraph.Walk.mem_support_append_iff, SimpleGraph.Walk.support_reverse,
          List.mem_reverse] at mem
        rcases mem with before | after
        · exact .inl (inner v before here first)
        · exact .inl (inner' v after here second)
  · rintro ⟨differ, left, left', path, isPath, inner⟩
    simp only [List.mem_append, List.mem_singleton, not_or] at left left'
    refine ⟨?_, left.2, left'.2⟩
    by_cases through : x ∈ path.support ∧ x ∉ gone
    · -- a path meets `x` once, so it falls into two paths that have no other vertex left inside
      obtain ⟨mem, kept⟩ := through
      have first := joinedThrough_takeUntil isPath left.1 kept mem left.2 left'.2 inner
      have memReverse : x ∈ path.reverse.support := by
        rwa [SimpleGraph.Walk.support_reverse, List.mem_reverse]
      have second := joinedThrough_takeUntil isPath.reverse left'.1 kept memReverse left'.2 left.2
        fun v inPath notFirst notLast => by
          rw [SimpleGraph.Walk.support_reverse, List.mem_reverse] at inPath
          exact inner v inPath notLast notFirst
      exact .inr ⟨differ, first, second⟩
    · refine .inl ⟨differ, left.1, left'.1, path, isPath, fun v mem first second => ?_⟩
      rcases List.mem_append.mp (inner v mem first second) with old | here
      · exact old
      · obtain rfl := List.mem_singleton.mp here
        exact not_not.mp fun kept => through ⟨mem, kept⟩

/-! ### Costs -/

def fillPairs (G : SimpleGraph String) (x : String) : Set (Sym2 String) :=
  {pair | ∃ a b, pair = s(a, b) ∧ a ≠ b ∧ G.Adj x a ∧ G.Adj x b ∧ ¬G.Adj a b}

/-- The vertex `x` has less to fill in than `y`, or as much and fewer neighbours, or as many and
comes first by name. -/
def Precedes (G : SimpleGraph String) (x y : String) : Prop :=
  (fillPairs G x).ncard < (fillPairs G y).ncard ∨ (fillPairs G x).ncard = (fillPairs G y).ncard ∧
    ((G.neighborSet x).ncard < (G.neighborSet y).ncard ∨
      (G.neighborSet x).ncard = (G.neighborSet y).ncard ∧ x < y)

theorem precedes_iff_lex : Precedes G x y ↔
    toLex ((fillPairs G x).ncard, toLex ((G.neighborSet x).ncard, x)) <
      toLex ((fillPairs G y).ncard, toLex ((G.neighborSet y).ncard, y)) := by
  rw [Prod.Lex.toLex_lt_toLex, Prod.Lex.toLex_lt_toLex, Precedes]

theorem Precedes.asymm (first : Precedes G x y) : ¬Precedes G y x :=
  fun second => lt_asymm (precedes_iff_lex.mp first) (precedes_iff_lex.mp second)

def unlinkedWithin (G : SimpleGraph String) (names : List String) : Set (Sym2 String) :=
  {pair | ∃ a ∈ names, ∃ b ∈ names, pair = s(a, b) ∧ a ≠ b ∧ ¬G.Adj a b}

theorem finite_unlinkedWithin (G : SimpleGraph String) (names : List String) :
    (unlinkedWithin G names).Finite := by
  refine (Set.Finite.image2 (fun a b => s(a, b)) names.finite_toSet names.finite_toSet).subset ?_
  rintro pair ⟨a, memA, b, memB, rfl, -⟩
  exact ⟨a, memA, b, memB, rfl⟩

theorem unlinkedWithin_cons {name : String} {names : List String} (fresh : name ∉ names) :
    unlinkedWithin G (name :: names) =
      (fun b => s(name, b)) '' {b | b ∈ names ∧ ¬G.Adj name b} ∪ unlinkedWithin G names := by
  ext pair
  constructor
  · rintro ⟨a, memA, b, memB, rfl, differ, apart⟩
    rcases List.mem_cons.mp memA with rfl | restA
    · have restB := (List.mem_cons.mp memB).resolve_left differ.symm
      exact .inl ⟨b, ⟨restB, apart⟩, rfl⟩
    · rcases List.mem_cons.mp memB with rfl | restB
      · exact .inl ⟨a, ⟨restA, fun adjacent => apart adjacent.symm⟩, Sym2.eq_swap⟩
      · exact .inr ⟨a, restA, b, restB, rfl, differ, apart⟩
  · rintro (⟨b, ⟨mem, apart⟩, rfl⟩ | ⟨a, memA, b, memB, rfl, differ, apart⟩)
    · exact ⟨name, .head _, b, .tail _ mem, rfl, fun same => fresh (same ▸ mem), apart⟩
    · exact ⟨a, .tail _ memA, b, .tail _ memB, rfl, differ, apart⟩

theorem notMem_unlinkedWithin {name : String} {names : List String} (fresh : name ∉ names)
    (b : String) : s(name, b) ∉ unlinkedWithin G names := by
  rintro ⟨a, memA, c, memC, same, -⟩
  rcases Sym2.eq_iff.mp same with ⟨rfl, -⟩ | ⟨rfl, -⟩
  · exact fresh memA
  · exact fresh memC

namespace Neighbourhoods

variable {g : Neighbourhoods} {names : List String}

theorem ncard_unlinked (represents : g.Represents G) (name : String) (nodup : names.Nodup) :
    {b | b ∈ names ∧ ¬G.Adj name b}.ncard =
      names.countP (!(g.neighbours name).contains ·) := by
  have listed : {b | b ∈ names ∧ ¬G.Adj name b} =
      ((names.filter (!(g.neighbours name).contains ·)).toFinset : Set String) := by
    ext b
    simp [← represents.adj, ← Std.ExtTreeSet.contains_iff_mem]
  rw [listed, Set.ncard_coe_finset, List.toFinset_card_of_nodup (nodup.filter _),
    List.countP_eq_length_filter]

theorem ncard_unlinkedWithin (represents : g.Represents G) (nodup : names.Nodup) :
    (unlinkedWithin G names).ncard = g.unlinkedPairs names := by
  induction names with
  | nil => simp [unlinkedWithin, unlinkedPairs]
  | cons name names ih =>
    obtain ⟨fresh, nodup⟩ := List.nodup_cons.mp nodup
    have finite : {b | b ∈ names ∧ ¬G.Adj name b}.Finite :=
      names.finite_toSet.subset fun _ mem => mem.1
    have injective : Function.Injective fun b => s(name, b) := fun b c same =>
      Sym2.congr_right.mp same
    have disjoint : Disjoint ((fun b => s(name, b)) '' {b | b ∈ names ∧ ¬G.Adj name b})
        (unlinkedWithin G names) := by
      rw [Set.disjoint_left]
      rintro _ ⟨b, -, rfl⟩
      exact notMem_unlinkedWithin fresh b
    rw [unlinkedWithin_cons fresh, Set.ncard_union_eq disjoint (finite.image _)
      (finite_unlinkedWithin G names), Set.ncard_image_of_injective _ injective,
      ncard_unlinked represents name nodup, ih nodup, unlinkedPairs]

theorem fillIn_eq_ncard (represents : g.Represents G) (x : String) :
    g.fillIn x = (fillPairs G x).ncard := by
  have listed : fillPairs G x = unlinkedWithin G (g.neighbours x).toList := by
    ext pair
    simp only [fillPairs, unlinkedWithin, represents.mem_toList, Set.mem_ofPred_eq]
    constructor
    · rintro ⟨a, b, same, differ, first, second, apart⟩
      exact ⟨a, first, b, second, same, differ, apart⟩
    · rintro ⟨a, first, b, second, same, differ, apart⟩
      exact ⟨a, b, same, differ, first, second, apart⟩
  rw [listed, ncard_unlinkedWithin represents (NameSet.nodup_toList _), fillIn]

theorem degree_eq_ncard (represents : g.Represents G) (x : String) :
    g.degree x = (G.neighborSet x).ncard := by
  rw [degree, ← NameSet.ncard_eq_size]
  congr 1
  ext a
  exact represents.adj x a

theorem lt_of_isLE_compare (le : (compare x y).isLE) (differ : x ≠ y) : x < y := by
  have cases : compare x y = if x < y then .lt else if x = y then .eq else .gt := rfl
  rw [cases, if_neg differ] at le
  split at le
  · assumption
  · cases le

theorem precedes_of_isLE (represents : g.Represents G) (le : (g.compareCost x y).isLE)
    (differ : x ≠ y) : Precedes G x y := by
  rw [Precedes, ← fillIn_eq_ncard represents, ← fillIn_eq_ncard represents,
    ← degree_eq_ncard represents, ← degree_eq_ncard represents]
  rcases Nat.lt_or_eq_of_le (fillIn_le_of_isLE le) with less | same
  · exact .inl less
  · refine .inr ⟨same, ?_⟩
    rw [compareCost, same, Nat.compare_eq_eq.mpr rfl, Ordering.eq_then] at le
    rcases Nat.lt_trichotomy (g.degree x) (g.degree y) with less | same' | more
    · exact .inl less
    · rw [same', Nat.compare_eq_eq.mpr rfl, Ordering.eq_then] at le
      exact .inr ⟨same', lt_of_isLE_compare le differ⟩
    · rw [Nat.compare_eq_gt.mpr more] at le
      cases le

end Neighbourhoods

/-! ### Turns -/

/-- After the vertices that are gone, every vertex of the order precedes all later ones when its
turn comes. -/
def Greedy (G : SimpleGraph String) : (gone : List String) → List String → Prop
  | _, [] => True
  | gone, x :: order => (∀ y ∈ order, Precedes (joinedThrough G gone) x y) ∧
    Greedy G (gone ++ [x]) order

theorem Greedy.unique {order order' : List String} (greedy : Greedy G gone order)
    (greedy' : Greedy G gone order') (perm : order.Perm order') : order = order' := by
  induction order generalizing gone order' with
  | nil => exact perm.nil_eq
  | cons x order ih =>
    cases order' with
    | nil => exact perm.eq_nil
    | cons y order' =>
      have same : x = y := by
        by_contra differ
        have later : y ∈ order :=
          (List.mem_cons.mp (perm.mem_iff.mpr (.head _))).resolve_left (Ne.symm differ)
        have later' : x ∈ order' :=
          (List.mem_cons.mp (perm.mem_iff.mp (.head _))).resolve_left differ
        exact (greedy.1 y later).asymm (greedy'.1 x later')
      subst same
      rw [ih greedy.2 greedy'.2 perm.cons_inv]

theorem Neighbourhoods.greedyOrder_greedy {g : Neighbourhoods}
    (represents : g.Represents (joinedThrough G gone)) (count : Nat) :
    Greedy G gone (greedyOrder count g) := by
  -- after every turn the table represents the graph with one more vertex gone
  induction count generalizing g gone with
  | zero => trivial
  | succ count ih =>
    rcases g.cheapest?_cases with ⟨none, -⟩ | ⟨x, found, -, cheapest⟩
    · rw [greedyOrder, none]
      trivial
    · have eliminated := represents.eliminate x
      rw [greedyOrder, found]
      refine ⟨fun y later => ?_, ih (eliminate_joinedThrough G gone x ▸ eliminated)⟩
      obtain ⟨differ, mem⟩ :=
        represents.mem_eliminate.mp (mem_of_mem_greedyOrder eliminated later)
      exact precedes_of_isLE represents (cheapest y mem) differ.symm

namespace DependencyGraph

def moral (g : DependencyGraph) : SimpleGraph String where
  Adj a b := a ≠ b ∧ (g.IsParent a b ∨ g.IsParent b a ∨
    ∃ child, g.IsParent a child ∧ g.IsParent b child)
  symm := ⟨by
    rintro a b ⟨differ, parent | child | ⟨common, left, right⟩⟩
    · exact ⟨differ.symm, .inr (.inl parent)⟩
    · exact ⟨differ.symm, .inl child⟩
    · exact ⟨differ.symm, .inr (.inr ⟨common, right, left⟩)⟩⟩
  loopless := ⟨fun _ related => related.1 rfl⟩

variable {σ : Type} {g : DependencyGraph}

theorem moral_eq (closed : g.Closed) : g.moral = g.moralWithin (.ofList g.names) := by
  have known {parent child : String} (isParent : g.IsParent parent child) :
      parent ∈ (.ofList g.names : NameSet) ∧ child ∈ (.ofList g.names : NameSet) := by
    rw [NameSet.mem_ofList, NameSet.mem_ofList]
    exact closed _ (isParent_iff.mp isParent)
  ext a b
  constructor
  · rintro ⟨differ, parent | child | ⟨common, left, right⟩⟩
    · exact ⟨differ, (known parent).1, (known parent).2, .inl parent⟩
    · exact ⟨differ, (known child).2, (known child).1, .inr (.inl child)⟩
    · exact ⟨differ, (known left).1, (known right).1,
        .inr (.inr ⟨common, (known left).2, left, right⟩)⟩
  · rintro ⟨differ, -, -, related⟩
    exact ⟨differ, related.imp_right fun up => up.imp_right fun ⟨child, _, both⟩ => ⟨child, both⟩⟩

/-- For every graph that variables and links build, the starting table is the moral graph of all
variables, and the min-fill order is the one order of all variables that plays the elimination game
on it greedily. -/
theorem minFillOrder_greedy (grown : Grown σ g) :
    (∀ name, name ∈ g.moralGraph ↔ name ∈ g.names) ∧
      (∀ a b, b ∈ g.moralGraph.neighbours a ↔ g.moral.Adj a b) ∧
      g.minFillOrder.Perm g.names ∧ Greedy g.moral [] g.minFillOrder ∧
      ∀ order : List String, order.Perm g.names → Greedy g.moral [] order →
        order = g.minFillOrder := by
  have represents : g.moralGraph.Represents g.moral :=
    moral_eq grown.closed ▸ represents_moralGraph grown.nodup grown.closed
  have perm := minFillOrder_perm grown.nodup grown.closed
  have greedy : Greedy g.moral [] g.minFillOrder :=
    Neighbourhoods.greedyOrder_greedy ((joinedThrough_nil g.moral).symm ▸ represents) g.size
  exact ⟨fun name => mem_moralGraph grown.closed, represents.adj, perm, greedy,
    fun order listed turns => turns.unique greedy (listed.trans perm.symm)⟩

theorem minFillOrder_greedy_fork :
    let g : DependencyGraph := ⟨["A", "B", "C", "D"], [("C", "D"), ("B", "C"), ("A", "C")]⟩
    Grown Rat g ∧ (∀ name, name ∈ g.moralGraph ↔ name ∈ g.names) ∧
      (∀ a b, b ∈ g.moralGraph.neighbours a ↔ g.moral.Adj a b) ∧
      g.minFillOrder.Perm g.names ∧ Greedy g.moral [] g.minFillOrder ∧
      ∀ order : List String, order.Perm g.names → Greedy g.moral [] order →
        order = g.minFillOrder := by
  intro g
  have unlinked : Grown Rat ⟨["A", "B", "C", "D"], []⟩ :=
    .add "D" (.add "C" (.add "B" (.add "A" .empty)))
  have linked (links : List (String × String)) (parent child : String)
      (grown : Grown Rat ⟨["A", "B", "C", "D"], links⟩)
      (run : (link ⟨["A", "B", "C", "D"], links⟩ parent child : Except (Error Rat) _) =
        .ok ⟨["A", "B", "C", "D"], (parent, child) :: links⟩) :
      Grown Rat ⟨["A", "B", "C", "D"], (parent, child) :: links⟩ := grown.link run
  have grown : Grown Rat g :=
    linked _ "C" "D" (linked _ "B" "C" (linked _ "A" "C" unlinked rfl) rfl) rfl
  exact ⟨grown, minFillOrder_greedy grown⟩

end DependencyGraph

end BayesDiagram
