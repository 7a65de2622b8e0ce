import BayesDiagram.Network.DependencyGraph
import Mathlib.Data.Set.Card

/-! Sets of names: what is in them, and how many names they have. -/
namespace BayesDiagram.NameSet

theorem mem_insert {set : NameSet} {name other : String} :
    other ∈ set.insert name ↔ other = name ∨ other ∈ set := by
  rw [Std.ExtTreeSet.mem_insert, Std.LawfulEqOrd.compare_eq_iff_eq, eq_comm]

theorem mem_erase {set : NameSet} {name other : String} :
    other ∈ set.erase name ↔ other ≠ name ∧ other ∈ set := by
  rw [Std.ExtTreeSet.mem_erase, ne_eq, Std.LawfulEqOrd.compare_eq_iff_eq, eq_comm]

theorem mem_ofList {names : List String} {name : String} :
    name ∈ (Std.ExtTreeSet.ofList names : NameSet) ↔ name ∈ names := by
  rw [Std.ExtTreeSet.mem_ofList, List.contains_iff_mem]

theorem nodup_toList (set : NameSet) : set.toList.Nodup :=
  set.distinct_toList.imp fun differ same =>
    differ (Std.LawfulEqOrd.compare_eq_iff_eq.mpr same)

theorem ncard_eq_size (set : NameSet) : {name | name ∈ set}.ncard = set.size := by
  have listed : {name | name ∈ set} = (set.toList.toFinset : Set String) := by
    ext name
    rw [Set.mem_ofPred_eq, Finset.mem_coe, List.mem_toFinset, Std.ExtTreeSet.mem_toList]
  rw [listed, Set.ncard_coe_finset, List.toFinset_card_of_nodup set.nodup_toList,
    Std.ExtTreeSet.length_toList]

end BayesDiagram.NameSet
