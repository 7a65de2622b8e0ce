import BayesDiagram.Proofs.Inference.Request

/-! Refusals. A request that a loaded model refuses names an unknown variable, gives an observed
variable a value that it does not have, or observes what it queries; that an observed bit is summed
out is checked as well, but never found. -/
namespace BayesDiagram

variable {σ : Type}

inductive Error.BlamesRequest : Error σ → Prop where
  | unknownVariable (name : String) : BlamesRequest (.unknownVariable name)
  | valueOutOfDomain (name : String) (index size : Nat) :
      BlamesRequest (.valueOutOfDomain name index size)
  | queryEvidenceOverlap (name : String) : BlamesRequest (.queryEvidenceOverlap name)

variable {name : String} {err : Error σ}

theorem DependencyGraph.require_blames {g : DependencyGraph}
    (failed : g.require name = .error err) : err.BlamesRequest := by
  obtain ⟨-, rfl⟩ := require_eq_error.mp failed
  exact .unknownVariable name

theorem DependencyGraph.ancestors_blames {g : DependencyGraph} (closed : g.Closed)
    {seeds : List String} (failed : g.ancestors seeds = .error err) : err.BlamesRequest := by
  cases required : (seeds.forM g.require : Except (Error σ) Unit) with
  | error other =>
    obtain ⟨seed, -, refused⟩ := exists_of_forM_eq_error required
    rw [ancestors, required] at failed
    cases failed
    exact require_blames refused
  | ok _ =>
    obtain ⟨set, run, -⟩ := ancestors_spec σ closed fun seed mem =>
      require_eq_ok.mp (forM_eq_ok.mp required seed mem)
    cases run.symm.trans failed

theorem Encoding.block_blames {e : Encoding} (failed : e.block name = .error err) :
    err.BlamesRequest := by
  rw [block] at failed
  split at failed
  · cases failed
  · cases failed
    exact .unknownVariable name

theorem blames_of_map {α β : Type} {step : Except (Error σ) α} {f : α → β}
    (blames : ∀ err, step = .error err → err.BlamesRequest) (failed : step.map f = .error err) :
    err.BlamesRequest := by
  cases found : step with
  | error other =>
    rw [found] at failed
    cases failed
    exact blames _ found
  | ok answer =>
    rw [found] at failed
    cases failed

theorem Encoding.bits_blames {e : Encoding} (failed : e.bits name = .error err) :
    err.BlamesRequest :=
  blames_of_map (fun _ => block_blames) failed

theorem Encoding.encode_blames {e : Encoding} {index : Nat}
    (failed : e.encode name index = .error err) : err.BlamesRequest := by
  rcases bind_eq_error.mp failed with unknown | ⟨b, -, outside⟩
  · exact block_blames unknown
  · split at outside
    · cases outside
    · cases outside
      exact .valueOutOfDomain name index b.arity

namespace Engine

variable {e : Engine} {query relevant : NameSet} {evidence : Evidence} {answered : Bool}

theorem variableOperations_blames
    (failed : e.variableOperations query evidence name = .error err) : err.BlamesRequest := by
  rw [variableOperations] at failed
  split at failed
  · exact blames_of_map (fun _ => Encoding.bits_blames) failed
  · split at failed
    · exact blames_of_map (fun _ => Encoding.encode_blames) failed
    · exact blames_of_map (fun _ => Encoding.bits_blames) failed

theorem assignOperations_blames (sound : e.Sound)
    (apart : query.toList.find? evidence.contains = none)
    (ancestors : (e.graph.ancestors (query.toList ++ evidence.keys) : Except (Error σ) NameSet) =
      .ok relevant)
    (failed : e.assignOperations relevant query evidence = .error err) : err.BlamesRequest := by
  rcases bind_eq_error.mp failed with refused | ⟨assigned, found, failed⟩
  · obtain ⟨name, -, refused⟩ := exists_of_mapM_eq_error refused
    exact variableOperations_blames refused
  · rcases bind_eq_error.mp failed with refused | ⟨-, -, failed⟩
    · obtain ⟨name, seen, refused⟩ := exists_of_forM_eq_error refused
      -- an observed variable is relevant and not queried, so all its bits are fixed
      have known : ∀ seed ∈ query.toList ++ evidence.keys, seed ∈ e.graph.names :=
        fun _ => DependencyGraph.mem_names_of_ancestors ancestors
      obtain ⟨set, run, mem⟩ := DependencyGraph.ancestors_spec σ sound.closed known
      obtain rfl : set = relevant := Except.ok.inj (run.symm.trans ancestors)
      have isRelevant := (mem name).mpr (.of_seed (List.mem_append_right _ seen))
      rw [Std.ExtTreeMap.mem_keys] at seen
      have unqueried : name ∉ query := fun queried =>
        List.find?_eq_none.mp apart name (Std.ExtTreeSet.mem_toList.mpr queried)
          (Std.ExtTreeMap.contains_iff_mem.mpr seen)
      obtain ⟨⟨b, here, -⟩, operations⟩ :=
        assigned_operationTable sound.encoding found isRelevant
      rw [Evidence.role_of_observed unqueried (Std.ExtTreeMap.getElem?_eq_some_getElem seen)]
        at operations
      cases (checkObserved_of_assigned here operations).symm.trans refused
    · cases failed

theorem Refuses.blames (sound : e.Sound) (scalar : e.normalization = .scalar)
    (refuses : e.Refuses query evidence answered err) : err.BlamesRequest := by
  cases refuses with
  | overlap => exact .queryEvidenceOverlap _
  | range asked unscaled => cases unscaled.symm.trans scalar
  | ancestors failed => exact DependencyGraph.ancestors_blames sound.closed failed
  | operations apart ancestors failed => exact assignOperations_blames sound apart ancestors failed
  | bits listed failed => exact Encoding.bits_blames failed

end Engine

end BayesDiagram
