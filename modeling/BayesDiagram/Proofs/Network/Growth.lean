import BayesDiagram.Proofs.Network.Dependencies

/-! Graphs that grow by variables and links. However such a graph was built, no variable is listed
twice and links join variables. So the ancestors of some variables, who are found by going up from
parent to parent, are exactly the variables that links lead down from; cycles do no harm. -/
namespace BayesDiagram.DependencyGraph

inductive Grown (σ : Type) : DependencyGraph → Prop where
  | empty : Grown σ {}
  | add {g : DependencyGraph} (name : String) (grown : Grown σ g) : Grown σ (g.add name)
  | link {g g' : DependencyGraph} {parent child : String} (grown : Grown σ g)
      (run : (g.link parent child : Except (Error σ) DependencyGraph) = .ok g') : Grown σ g'

variable {σ : Type} {g : DependencyGraph}

theorem Grown.nodup (grown : Grown σ g) : g.names.Nodup := by
  induction grown with
  | empty => exact List.nodup_nil
  | add name _ ih => exact nodup_add ih
  | link _ run ih =>
    rw [(link_spec run).1]
    exact ih

theorem Grown.closed (grown : Grown σ g) : g.Closed := by
  induction grown with
  | empty => exact fun link mem => absurd mem List.not_mem_nil
  | add name _ ih =>
    intro link mem
    rw [links_add] at mem
    exact ⟨mem_names_add.mpr (.inl (ih link mem).1), mem_names_add.mpr (.inl (ih link mem).2)⟩
  | link _ run ih =>
    obtain ⟨names, parentKnown, childKnown, links⟩ := link_spec run
    intro link mem
    rw [names]
    rcases (links link).mp mem with old | rfl
    · exact ih link old
    · exact ⟨parentKnown, childKnown⟩

/-! ### Ancestors -/

theorem ancestors_eq_error {before after : List String} {seed : String}
    (known : ∀ other ∈ before, other ∈ g.names) (unknown : seed ∉ g.names) :
    (g.ancestors (before ++ seed :: after) : Except (Error σ) NameSet) =
      .error (.unknownVariable seed) := by
  have refused : ((before ++ seed :: after).forM g.require : Except (Error σ) Unit) =
      .error (.unknownVariable seed) :=
    forM_eq_error (fun other mem => require_eq_ok.mpr (known other mem))
      (require_eq_error.mpr ⟨unknown, rfl⟩)
  rw [ancestors, refused]
  rfl

/-- For every graph that variables and links build and any seeds, the search of ancestors ends: it
blames the first seed that is no variable, and without such a seed it finds exactly the variables
from which links lead down to a seed. -/
theorem ancestors_upwardClosure (grown : Grown σ g) (seeds : List String) :
    (∀ before seed after, seeds = before ++ seed :: after →
      (∀ other ∈ before, other ∈ g.names) → seed ∉ g.names →
      (g.ancestors seeds : Except (Error σ) NameSet) = .error (.unknownVariable seed)) ∧
    ((∀ seed ∈ seeds, seed ∈ g.names) →
      ∃ set, (g.ancestors seeds : Except (Error σ) NameSet) = .ok set ∧
        (∀ name, name ∈ set ↔ ∃ seed ∈ seeds,
          Relation.ReflTransGen (fun parent child => (parent, child) ∈ g.links) name seed) ∧
        ∀ parent child, (parent, child) ∈ g.links → child ∈ set → parent ∈ set) := by
  constructor
  · rintro before seed after rfl known unknown
    exact ancestors_eq_error known unknown
  · intro known
    obtain ⟨set, run, mem⟩ := ancestors_spec σ grown.closed known
    have linked : g.IsParent = fun parent child => (parent, child) ∈ g.links :=
      funext fun parent => funext fun child => propext isParent_iff
    refine ⟨set, run, fun name => linked ▸ mem name, fun parent child link inSet => ?_⟩
    rw [mem] at inSet ⊢
    exact inSet.of_parent (isParent_iff.mpr link)

theorem ancestors_upwardClosure_cycle :
    let g : DependencyGraph := ⟨["A", "B", "C"], [("C", "C"), ("B", "A"), ("A", "B")]⟩
    Grown Rat g ∧
      (g.ancestors ["C", "X", "A", "Y"] : Except (Error Rat) NameSet) =
        .error (.unknownVariable "X") ∧
      ∃ set, (g.ancestors ["B", "B"] : Except (Error Rat) NameSet) = .ok set ∧
        "A" ∈ set ∧ "C" ∉ set := by
  intro g
  have unlinked : Grown Rat ⟨["A", "B", "C"], []⟩ := .add "C" (.add "B" (.add "A" .empty))
  have linked (links : List (String × String)) (parent child : String)
      (grown : Grown Rat ⟨["A", "B", "C"], links⟩)
      (run : (link ⟨["A", "B", "C"], links⟩ parent child : Except (Error Rat) _) =
        .ok ⟨["A", "B", "C"], (parent, child) :: links⟩) :
      Grown Rat ⟨["A", "B", "C"], (parent, child) :: links⟩ := grown.link run
  have grown : Grown Rat g :=
    linked _ "C" "C" (linked _ "B" "A" (linked _ "A" "B" unlinked rfl) rfl) rfl
  obtain ⟨blames, -⟩ := ancestors_upwardClosure grown ["C", "X", "A", "Y"]
  obtain ⟨-, finds⟩ := ancestors_upwardClosure grown ["B", "B"]
  obtain ⟨set, run, mem, -⟩ := finds (by decide)
  refine ⟨grown, blames ["C"] "X" ["A", "Y"] rfl (by decide) (by decide), set, run, ?_, ?_⟩
  · exact (mem "A").mpr ⟨"B", .head _, .single (.tail _ (.tail _ (.head _)))⟩
  · -- links from the third variable lead back to itself only
    have stays (name : String) (path : Relation.ReflTransGen
        (fun parent child => (parent, child) ∈ g.links) "C" name) : name = "C" := by
      induction path with
      | refl => rfl
      | tail _ link ih =>
        subst ih
        simpa [g] using link
    rw [mem]
    rintro ⟨seed, listed, path⟩
    rw [stays seed path] at listed
    exact absurd listed (by decide)

end BayesDiagram.DependencyGraph
