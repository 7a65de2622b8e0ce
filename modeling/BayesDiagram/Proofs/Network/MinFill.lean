import BayesDiagram.Proofs.Network.Forests
import BayesDiagram.Proofs.Network.Neighbourhoods
import Mathlib.Data.Set.Pairwise.List

/-! The min-fill order. A greedy step takes a name that costs least, and the steps go through all
names. A name has nothing to fill in exactly when its neighbours form a clique; in a forest that
leaves it with one neighbour at most, and there is always such a name, so the order peels the
forest. -/
namespace BayesDiagram

namespace Neighbourhoods

variable {g : Neighbourhoods} {G : SimpleGraph String} {rank : String → Nat} {x y : String}
  {names : List String}

/-! ### The cheapest name -/

instance (g : Neighbourhoods) : Std.TransCmp g.compareCost :=
  inferInstanceAs (Std.TransCmp (compareLex (compareOn g.fillIn)
    (compareLex (compareOn g.degree) (compare : String → String → Ordering))))

theorem fillIn_le_of_isLE (cheaper : (g.compareCost x y).isLE) : g.fillIn x ≤ g.fillIn y := by
  by_contra more
  have above : compare (g.fillIn x) (g.fillIn y) = .gt := Nat.compare_eq_gt.mpr (not_le.mp more)
  simp [compareCost, above] at cheaper

def better (g : Neighbourhoods) (best : Option String) (name : String) : Option String :=
  match best with
  | none => some name
  | some best => if g.compareCost name best = .lt then some name else some best

theorem cheapest?_eq (g : Neighbourhoods) : g.cheapest? = g.keys.foldl g.better none :=
  rfl

theorem better_some (g : Neighbourhoods) (best name : String) :
    ∃ first, g.better (some best) name = some first ∧ (first = best ∨ first = name) ∧
      (g.compareCost first best).isLE ∧ (g.compareCost first name).isLE := by
  rw [better]
  split
  · next less =>
    exact ⟨name, rfl, .inr rfl, Ordering.isLE_of_eq_lt less, Std.ReflCmp.isLE_rfl⟩
  · next notLess =>
    exact ⟨best, rfl, .inl rfl, Std.ReflCmp.isLE_rfl,
      Std.OrientedCmp.isLE_of_isGE (Ordering.isGE_iff_ne_lt.mpr notLess)⟩

theorem foldl_better (g : Neighbourhoods) (names : List String) (best : String) :
    ∃ x, names.foldl g.better (some best) = some x ∧ x ∈ best :: names ∧
      ∀ y ∈ best :: names, (g.compareCost x y).isLE := by
  induction names generalizing best with
  | nil =>
    refine ⟨best, rfl, .head _, fun y mem => ?_⟩
    rw [List.mem_singleton.mp mem]
    exact Std.ReflCmp.isLE_rfl
  | cons name names ih =>
    obtain ⟨first, step, choice, leBest, leName⟩ := g.better_some best name
    obtain ⟨x, found, mem, least⟩ := ih first
    have leFirst := least first (.head _)
    refine ⟨x, ?_, ?_, ?_⟩
    · rw [List.foldl_cons, step, found]
    · rcases List.mem_cons.mp mem with rfl | later
      · rcases choice with rfl | rfl
        · exact .head _
        · exact .tail _ (.head _)
      · exact .tail _ (.tail _ later)
    · rw [List.forall_mem_cons, List.forall_mem_cons]
      exact ⟨Std.TransCmp.isLE_trans leFirst leBest, Std.TransCmp.isLE_trans leFirst leName,
        fun y later => least y (.tail _ later)⟩

theorem cheapest?_cases (g : Neighbourhoods) :
    (g.cheapest? = none ∧ ∀ x, x ∉ g) ∨
      ∃ x, g.cheapest? = some x ∧ x ∈ g ∧ ∀ y ∈ g, (g.compareCost x y).isLE := by
  simp only [cheapest?_eq, ← Std.ExtTreeMap.mem_keys]
  cases g.keys with
  | nil => exact .inl ⟨rfl, fun x => List.not_mem_nil⟩
  | cons first names => exact .inr (g.foldl_better names first)

theorem greedyOrder_perm (represents : g.Represents G) (nodup : names.Nodup)
    (keys : ∀ x, x ∈ g ↔ x ∈ names) : (greedyOrder names.length g).Perm names := by
  generalize count : names.length = length
  induction length generalizing g G names with
  | zero =>
    rw [List.eq_nil_of_length_eq_zero count]
    rfl
  | succ length ih =>
    rcases g.cheapest?_cases with ⟨-, empty⟩ | ⟨x, found, mem, -⟩
    · obtain ⟨first, rest, rfl⟩ := List.exists_cons_of_length_eq_add_one count
      exact absurd ((keys first).mpr (.head rest)) (empty first)
    · have listed := (keys x).mp mem
      rw [greedyOrder, found]
      refine ((ih (represents.eliminate x) (nodup.erase x) (fun y => ?_) ?_).cons x).trans
        (List.perm_cons_erase listed).symm
      · rw [represents.mem_eliminate, keys, nodup.mem_erase_iff]
      · rw [List.length_erase_of_mem listed, count, Nat.add_sub_cancel]

/-! ### Nothing to fill in -/

theorem unlinkedPairs_eq_zero :
    g.unlinkedPairs names = 0 ↔ names.Pairwise fun a b => b ∈ g.neighbours a := by
  induction names with
  | nil => simp [unlinkedPairs]
  | cons name names ih =>
    rw [unlinkedPairs, Nat.add_eq_zero_iff, ih, List.countP_eq_zero, List.pairwise_cons]
    simp

theorem fillIn_eq_zero (represents : g.Represents G) :
    g.fillIn x = 0 ↔ G.IsClique (G.neighborSet x) := by
  have listed : {a | a ∈ (g.neighbours x).toList} = G.neighborSet x :=
    Set.ext fun a => represents.mem_toList
  have adjacent : (fun a b => b ∈ g.neighbours a) = G.Adj :=
    funext fun a => funext fun b => propext (represents.adj a b)
  rw [fillIn, unlinkedPairs_eq_zero, adjacent, SimpleGraph.IsClique, ← listed]
  have symmetric := G.symm
  exact (NameSet.nodup_toList _).pairwise_coe.symm

/-- In a forest the cheapest name has one neighbour at most. The name of highest rank has nothing
to fill in, so neither has the cheapest one. -/
theorem subsingleton_of_cheapest (represents : g.Represents G) (rooted : Rooted G rank)
    (mem : x ∈ g) (cheapest : ∀ y ∈ g, (g.compareCost x y).isLE) :
    (G.neighborSet x).Subsingleton := by
  obtain ⟨top, isName, highest⟩ := g.keys.toFinset.exists_max_image rank
    ⟨x, List.mem_toFinset.mpr (Std.ExtTreeMap.mem_keys.mpr mem)⟩
  simp only [List.mem_toFinset, Std.ExtTreeMap.mem_keys] at isName highest
  have leaf : (G.neighborSet top).Subsingleton :=
    rooted.subsingleton_of_top fun a adjacent => highest a (represents.known a top adjacent.symm)
  have free : g.fillIn top = 0 := (fillIn_eq_zero represents).mpr (leaf.pairwise _)
  have least : g.fillIn x ≤ g.fillIn top := fillIn_le_of_isLE (cheapest top isName)
  exact rooted.subsingleton_of_isClique
    ((fillIn_eq_zero represents).mp (Nat.le_zero.mp (free ▸ least)))

theorem mem_of_mem_greedyOrder (represents : g.Represents G) {count : Nat}
    (mem : x ∈ greedyOrder count g) : x ∈ g := by
  induction count generalizing g G with
  | zero => exact absurd mem List.not_mem_nil
  | succ count ih =>
    rcases g.cheapest?_cases with ⟨none, -⟩ | ⟨first, found, isName, -⟩
    · rw [greedyOrder, none] at mem
      exact absurd mem List.not_mem_nil
    · rw [greedyOrder, found] at mem
      rcases List.mem_cons.mp mem with rfl | later
      · exact isName
      · exact (represents.mem_eliminate.mp (ih (represents.eliminate first) later)).2

theorem greedyOrder_peels (represents : g.Represents G) (rooted : Rooted G rank) (count : Nat) :
    Peels G (greedyOrder count g) := by
  induction count generalizing g G with
  | zero => trivial
  | succ count ih =>
    rcases g.cheapest?_cases with ⟨none, -⟩ | ⟨x, found, mem, cheapest⟩
    · rw [greedyOrder, none]
      trivial
    · have leaf := subsingleton_of_cheapest represents rooted mem cheapest
      have eliminated := represents.eliminate x
      have le : BayesDiagram.eliminate ∅ G x ≤ G := fun a b adjacent =>
        ((eliminate_adj_of_subsingleton leaf).mp adjacent).1
      rw [greedyOrder, found]
      refine ⟨leaf.anti fun a later => later.2,
        (ih eliminated (rooted.mono le)).congr fun a memA b memB adjacent => ?_⟩
      have others {a : String} (mem : a ∈ greedyOrder count (g.eliminate x)) : a ≠ x :=
        (represents.mem_eliminate.mp (mem_of_mem_greedyOrder eliminated mem)).1
      exact (eliminate_adj_of_subsingleton leaf).mpr ⟨adjacent, .inr ⟨others memA, others memB⟩⟩

end Neighbourhoods

namespace DependencyGraph

variable {g : DependencyGraph} {rank : String → Nat}

theorem minFillOrder_perm (nodup : g.names.Nodup) (closed : g.Closed) :
    g.minFillOrder.Perm g.names :=
  Neighbourhoods.greedyOrder_perm (represents_moralGraph nodup closed) nodup
    fun _ => mem_moralGraph closed

theorem minFillOrder_peels (nodup : g.names.Nodup) (closed : g.Closed) (ranks : g.Ranks rank)
    (single : ∀ parent parent' child, g.IsParent parent child → g.IsParent parent' child →
      parent = parent') :
    Peels (g.moralWithin (.ofList g.names)) g.minFillOrder :=
  Neighbourhoods.greedyOrder_peels (represents_moralGraph nodup closed)
    (rooted_moralWithin ranks single _) _

end DependencyGraph

end BayesDiagram
