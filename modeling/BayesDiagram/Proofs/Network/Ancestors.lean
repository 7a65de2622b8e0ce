import BayesDiagram.Network.DependencyGraph
import BayesDiagram.Proofs.Closure
import BayesDiagram.Proofs.Sequences
import Mathlib.Logic.Relation

/-! Ancestors. The search along parents finds the seeds and everything above them. -/
namespace BayesDiagram

namespace DependencyGraph

variable {σ : Type} {g : DependencyGraph} {seeds : List String} {name parent child : String}

def IsParent (g : DependencyGraph) (parent child : String) : Prop :=
  parent ∈ g.parentsOf child

/-- One of the seeds, or a variable that links lead down from to a seed. -/
def Above (g : DependencyGraph) (seeds : List String) (name : String) : Prop :=
  ∃ seed ∈ seeds, Relation.ReflTransGen g.IsParent name seed

def Closed (g : DependencyGraph) : Prop :=
  ∀ link ∈ g.links, link.1 ∈ g.names ∧ link.2 ∈ g.names

theorem isParent_iff : g.IsParent parent child ↔ (parent, child) ∈ g.links := by
  simp only [IsParent, parentsOf, List.mem_map, List.mem_filter, beq_iff_eq]
  constructor
  · rintro ⟨⟨first, second⟩, ⟨mem, rfl⟩, rfl⟩
    exact mem
  · intro mem
    exact ⟨(parent, child), ⟨mem, rfl⟩, rfl⟩

theorem require_eq_ok : (g.require name : Except (Error σ) Unit) = .ok () ↔ name ∈ g.names := by
  rw [require, contains, ← List.contains_iff_mem]
  split
  · next known => exact ⟨fun _ => known, fun _ => rfl⟩
  · next unknown => exact ⟨nofun, fun known => absurd known unknown⟩

theorem require_eq_error {e : Error σ} :
    g.require name = .error e ↔ name ∉ g.names ∧ e = .unknownVariable name := by
  rw [require, contains]
  split
  · next known =>
    exact iff_of_false nofun fun unknown => unknown.1 (List.contains_iff_mem.mp known)
  · next unknown =>
    rw [Except.error.injEq, eq_comm, and_iff_right (mt List.contains_iff_mem.mpr unknown)]

theorem Above.of_seed (mem : name ∈ seeds) : g.Above seeds name :=
  ⟨name, mem, .refl⟩

theorem Above.of_parent (above : g.Above seeds child) (isParent : g.IsParent parent child) :
    g.Above seeds parent := by
  obtain ⟨seed, mem, path⟩ := above
  exact ⟨seed, mem, .head isParent path⟩

theorem reached_iff_above :
    Reached (fun name => (.ok (g.parentsOf name) : Except (Error σ) _)) seeds name ↔
      g.Above seeds name := by
  constructor
  · intro reached
    induction reached with
    | start mem => exact .of_seed mem
    | step _ found mem ih =>
      cases found
      exact Above.of_parent ih mem
  · rintro ⟨seed, mem, path⟩
    induction path using Relation.ReflTransGen.head_induction_on with
    | refl => exact .start mem
    | head isParent _ ih => exact .step ih rfl isParent

theorem Closed.above_mem (closed : g.Closed) (known : ∀ seed ∈ seeds, seed ∈ g.names)
    (above : g.Above seeds name) : name ∈ g.names := by
  obtain ⟨seed, mem, path⟩ := above
  rcases path.cases_head with rfl | ⟨child, isParent, -⟩
  · exact known name mem
  · exact (closed _ (isParent_iff.mp isParent)).1

theorem mem_ofList_toList {set : Std.TreeSet String} :
    name ∈ (Std.ExtTreeSet.ofList set.toList : NameSet) ↔ name ∈ set := by
  rw [Std.ExtTreeSet.mem_ofList, List.contains_iff_mem, Std.TreeSet.mem_toList]

variable (σ) in
theorem ancestors_spec (closed : g.Closed) (known : ∀ seed ∈ seeds, seed ∈ g.names) :
    ∃ set, (g.ancestors seeds : Except (Error σ) NameSet) = .ok set ∧
      ∀ name, name ∈ set ↔ g.Above seeds name := by
  have covers (point : String)
      (reached : Reached (fun name => (.ok (g.parentsOf name) : Except (Error σ) _)) seeds point) :
      point ∈ (Std.TreeSet.ofList g.names : Std.TreeSet String) := by
    rw [Std.TreeSet.mem_ofList, List.contains_iff_mem]
    exact closed.above_mem known (reached_iff_above.mp reached)
  obtain ⟨found, run, mem⟩ := mem_closure _ (fun _ _ => ⟨_, rfl⟩) covers
  have required : (seeds.forM g.require : Except (Error σ) Unit) = .ok () :=
    forM_eq_ok.mpr fun seed mem => require_eq_ok.mpr (known seed mem)
  refine ⟨.ofList found.toList, ?_, fun name => ?_⟩
  · rw [ancestors, required]
    show ((closure _ _ _ _ : Except (Error σ) _) >>= _) = _
    rw [run]
    rfl
  · rw [mem_ofList_toList, mem, reached_iff_above]

theorem mem_names_of_ancestors {set : NameSet}
    (run : (g.ancestors seeds : Except (Error σ) NameSet) = .ok set) {seed : String}
    (mem : seed ∈ seeds) : seed ∈ g.names := by
  obtain ⟨_, required, -⟩ := bind_eq_ok.mp run
  exact require_eq_ok.mp (forM_eq_ok.mp required seed mem)

end DependencyGraph

end BayesDiagram
