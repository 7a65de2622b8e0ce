import BayesDiagram.Proofs.Inference.LoadOutcome
import BayesDiagram.Proofs.Network.EliminationGame

/-! Orders that a graph accepts. A list of names is completed to an order of all variables: the
variables it mentions come at their first mention, and the others follow as they were added. The
check accepts the orders of all variables and nothing else, so the min-fill order and every
completed list pass it, and no network is refused for them. -/
namespace BayesDiagram

/-! ### First mentions -/

theorem pairwise_firstMentions (listed : List String) (p : String → Bool) :
    (listed.filter p).eraseDups.Pairwise fun a b => listed.idxOf a < listed.idxOf b := by
  induction listed generalizing p with
  | nil => exact .nil
  | cons first listed ih =>
    -- what does not mention `first` keeps its order one place further on
    have later {q : String → Bool} (others : ∀ a ∈ listed.filter q, a ≠ first) :
        (listed.filter q).eraseDups.Pairwise fun a b =>
          (first :: listed).idxOf a < (first :: listed).idxOf b := by
      refine (ih q).imp_of_mem fun {a b} memA memB before => ?_
      rw [List.idxOf_cons_ne _ (others a (List.mem_eraseDups.mp memA)).symm,
        List.idxOf_cons_ne _ (others b (List.mem_eraseDups.mp memB)).symm]
      exact Nat.succ_lt_succ before
    cases mentioned : p first with
    | false =>
      rw [List.filter_cons_of_neg (Bool.not_eq_true _ ▸ mentioned)]
      refine later fun a mem same => ?_
      rw [same, List.mem_filter, mentioned] at mem
      exact Bool.false_ne_true mem.2
    | true =>
      rw [List.filter_cons_of_pos mentioned, List.eraseDups_cons, List.filter_filter]
      have others (a : String)
          (mem : a ∈ listed.filter fun a => (!a == first) && p a) : a ≠ first := by
        simp only [List.mem_filter, Bool.and_eq_true, Bool.not_eq_true', beq_eq_false_iff_ne] at mem
        exact mem.2.1
      refine List.pairwise_cons.mpr ⟨fun b mem => ?_, later others⟩
      rw [List.idxOf_cons_self, List.idxOf_cons_ne _ (others b (List.mem_eraseDups.mp mem)).symm]
      exact Nat.succ_pos _

theorem eraseDups_eq_self {names : List String} (nodup : names.Nodup) :
    names.eraseDups = names := by
  induction names with
  | nil => rfl
  | cons first names ih =>
    obtain ⟨new, nodup⟩ := List.nodup_cons.mp nodup
    have others : names.filter (fun name => !name == first) = names :=
      List.filter_eq_self.mpr fun name mem => by
        have differ : name ≠ first := fun same => new (same ▸ mem)
        simpa using differ
    rw [List.eraseDups_cons, others, ih nodup]

namespace DependencyGraph

variable {σ : Type} {g : DependencyGraph} {listed : List String}

/-- An order in which the variables that a list mentions come first, at their first mention, and the
others follow in the order of their addition. -/
structure Completes (g : DependencyGraph) (listed order : List String) : Prop where
  perm : order.Perm g.names
  split : ∃ mentioned, order = mentioned ++ g.names.filter (· ∉ listed) ∧
    (∀ name, name ∈ mentioned ↔ name ∈ listed ∧ name ∈ g.names) ∧
    mentioned.Pairwise fun a b => listed.idxOf a < listed.idxOf b

theorem completedOrder_eq (nodup : g.names.Nodup) : g.completedOrder listed =
    (listed.filter g.contains).eraseDups ++ g.names.filter (· ∉ listed) := by
  have others : g.names.removeAll (listed.filter g.contains) = g.names.filter (· ∉ listed) :=
    List.filter_congr fun name known => by simp [contains, known]
  rw [completedOrder, List.eraseDups_append, others, eraseDups_eq_self (nodup.filter _)]

theorem completedOrder_completes (nodup : g.names.Nodup) (listed : List String) :
    g.Completes listed (g.completedOrder listed) := by
  have mentioned (name : String) : name ∈ (listed.filter g.contains).eraseDups ↔
      name ∈ listed ∧ name ∈ g.names := by
    rw [List.mem_eraseDups, List.mem_filter, contains, List.contains_iff_mem]
  have ordered := pairwise_firstMentions listed g.contains
  rw [completedOrder_eq nodup]
  refine ⟨?_, _, rfl, mentioned, ordered⟩
  have distinct : ((listed.filter g.contains).eraseDups ++
      g.names.filter (· ∉ listed)).Nodup := by
    refine List.nodup_append.mpr ⟨ordered.imp fun before same => ?_, nodup.filter _,
      fun a mem b mem' same => ?_⟩
    · exact Nat.lt_irrefl _ (same ▸ before)
    · subst same
      have absent : a ∉ listed := by simpa using (List.mem_filter.mp mem').2
      exact absent ((mentioned a).mp mem).1
  refine (List.perm_ext_iff_of_nodup distinct nodup).mpr fun name => ?_
  simp only [List.mem_append, mentioned, List.mem_filter, decide_eq_true_eq]
  tauto

end DependencyGraph

/-! ### Validation -/

variable {σ : Type}

inductive Error.BlamesNetwork : Error σ → Prop where
  | unknownVariable (name : String) : BlamesNetwork (.unknownVariable name)
  | valueOutOfDomain (name : String) (index size : Nat) :
      BlamesNetwork (.valueOutOfDomain name index size)
  | malformedTable (head : String) (defect : TableDefect σ) :
      BlamesNetwork (.malformedTable head defect)
  | cyclicDependency (name : String) : BlamesNetwork (.cyclicDependency name)

namespace Network

variable {n : Network σ} {t : ConditionalTable σ} {err : Error σ}

theorem getVariable_blames {name : String} (failed : n.getVariable name = .error err) :
    err.BlamesNetwork := by
  rw [getVariable] at failed
  split at failed
  · cases failed
  · cases failed
    exact .unknownVariable name

theorem dependencies_blames {names : List String} {tables : List (ConditionalTable σ)}
    (failed : dependencies names tables = .error err) : err.BlamesNetwork := by
  obtain ⟨-, -, name, -, -, rfl⟩ := dependencies_eq_error failed
  exact .unknownVariable name

variable [Scalar σ]

theorem checkEntry_blames {scope : List Variable} {assignment : List Nat} {p : σ}
    (failed : checkEntry t scope assignment p = .error err) : err.BlamesNetwork := by
  rw [checkEntry] at failed
  split at failed
  · cases failed
    exact .malformedTable _ _
  · rcases bind_eq_error.mp failed with outside | ⟨-, -, failed⟩
    · obtain ⟨⟨v, index⟩, -, outside⟩ := exists_of_forM_eq_error outside
      dsimp only at outside
      split at outside
      · cases outside
      · cases outside
        exact .valueOutOfDomain _ _ _
    · split at failed
      · cases failed
      · cases failed
        exact .malformedTable _ _

theorem checkRow_blames {row : List Nat} {sum : σ} (failed : checkRow t row sum = .error err) :
    err.BlamesNetwork := by
  rw [checkRow] at failed
  split at failed
  · cases failed
    exact .malformedTable _ _
  · cases failed

theorem checkTable_blames (failed : n.checkTable t = .error err) : err.BlamesNetwork := by
  rcases bind_eq_error.mp failed with unknown | ⟨scope, -, failed⟩
  · obtain ⟨name, -, unknown⟩ := exists_of_mapM_eq_error unknown
    exact getVariable_blames unknown
  · cases repeated : firstRepeated? [] t.scope with
    | some name =>
      rw [repeated] at failed
      cases failed
      exact .malformedTable _ _
    | none =>
      rw [repeated] at failed
      rcases bind_eq_error.mp failed with entry | ⟨-, -, rows⟩
      · obtain ⟨⟨assignment, p⟩, -, entry⟩ := exists_of_forM_eq_error entry
        exact checkEntry_blames entry
      · obtain ⟨⟨row, sum⟩, -, row⟩ := exists_of_forM_eq_error rows
        exact checkRow_blames row

theorem validate_blames (failed : n.validate = .error err) : err.BlamesNetwork := by
  rcases bind_eq_error.mp failed with table | ⟨-, -, failed⟩
  · obtain ⟨t, -, table⟩ := exists_of_forM_eq_error table
    exact checkTable_blames table
  · rcases bind_eq_error.mp failed with unlinked | ⟨g, -, cyclic⟩
    · exact dependencies_blames unlinked
    · rw [DependencyGraph.checkAcyclicWith] at cyclic
      split at cyclic
      · cases cyclic
        exact .cyclicDependency _
      · cases cyclic

end Network

/-! ### Loading -/

namespace Model

open Failure Network

variable {n : Network σ} {g : DependencyGraph}

theorem getVariable_of_checkOrder {order : List String} (graphed : graphOf n = .ok g)
    (ordered : (g.checkOrder order : Except (Error σ) Unit) = .ok ()) (built : n.Built) :
    ∀ name ∈ order, ∃ v, n.getVariable name = .ok v := fun name mem =>
  ((graphOf_spec built graphed).2.1 name
    ((DependencyGraph.checkOrder_eq_ok.mp ordered).2 name |>.mp mem)).1

variable [Scalar σ] {κ : Type} [Coefficient σ κ]

theorem load_ne_invalidOrder {config : ModelConfig σ} {ordering : DependencyGraph → List String}
    (built : n.Built) (accepts : ∀ g, graphOf n = .ok g →
      (g.checkOrder (ordering g) : Except (Error σ) Unit) = .ok ()) (defect : OrderDefect) :
    load (κ := κ) n config ordering ≠ .error (.error (.invalidOrder defect)) := by
  intro failed
  rcases bind_eq_error.mp failed with invalid | ⟨_, valid, rest⟩
  · cases validate_blames (liftError_eq_error.mp invalid)
  rcases bind_eq_error.mp rest with refused | ⟨g, graphed, rest⟩
  · cases dependencies_blames (liftError_eq_error.mp refused)
  rw [liftError_eq_ok] at valid graphed
  have ordered := accepts g graphed
  dsimp only at rest
  rw [bind_of_eq_ok (liftError_eq_ok.mpr ordered)] at rest
  rcases bind_eq_error.mp rest with unencoded | ⟨e, encoded, rest⟩
  · rw [encodingOf_eq (getVariable_of_checkOrder graphed ordered built)] at unencoded
    exact liftFault_ne_error unencoded
  rw [bind_of_eq_ok (liftError_eq_ok.mpr (expand_of_checkOrder ordered encoded))] at rest
  rcases bind_eq_error.mp rest with uncreated | ⟨s, created, -⟩
  · exact liftFault_ne_error uncreated
  -- with a store, nothing is left that could fail
  obtain ⟨m, w, loads⟩ :=
    exists_load built valid graphed ordered encoded (liftFault_eq_ok.mp created)
  cases failed.symm.trans loads

/-- Every list of names, with repetitions and with names of no variable, is completed to an order of
all variables. The check of orders accepts the orders of all variables and nothing else, and loading
in the min-fill order or in an order completed from a list is never refused for its order. -/
theorem accepts_completed_orders (grown : DependencyGraph.Grown σ g) (built : n.Built)
    (config : ModelConfig σ) :
    (∀ listed, g.Completes listed (g.completedOrder listed)) ∧
    (∀ order, (g.checkOrder order : Except (Error σ) Unit) = .ok () ↔ order.Perm g.names) ∧
    ∀ ordering, (ordering = DependencyGraph.minFillOrder ∨
        ∃ listed, ordering = DependencyGraph.completedOrder listed) →
      ∀ defect, load (κ := κ) n config ordering ≠ .error (.error (.invalidOrder defect)) := by
  refine ⟨DependencyGraph.completedOrder_completes grown.nodup,
    fun order => DependencyGraph.checkOrder_iff_perm grown.nodup, fun ordering chosen => ?_⟩
  refine load_ne_invalidOrder built fun g graphed => ?_
  obtain ⟨nodup, -, closed, -⟩ := graphOf_spec built graphed
  rw [DependencyGraph.checkOrder_iff_perm nodup]
  rcases chosen with rfl | ⟨listed, rfl⟩
  · exact g.minFillOrder_perm nodup closed
  · exact (DependencyGraph.completedOrder_completes nodup listed).perm

theorem accepts_completed_orders_sprinkler :
    let g : DependencyGraph := ⟨["Rain", "Sprinkler", "Wet"], []⟩
    let order := ["Wet", "Rain", "Sprinkler"]
    DependencyGraph.Grown Rat g ∧ Network.sprinkler.Built ∧
      g.Completes ["Wet", "Snow", "Rain", "Wet"] order ∧
      (g.checkOrder order : Except (Error Rat) Unit) = .ok () ∧
      ∀ defect, load (κ := Rat) .sprinkler ⟨.exact, .scalar⟩ DependencyGraph.minFillOrder ≠
        .error (.error (.invalidOrder defect)) := by
  intro g order
  have grown : DependencyGraph.Grown Rat g := .add "Wet" (.add "Sprinkler" (.add "Rain" .empty))
  obtain ⟨completes, accepts, loads⟩ :=
    accepts_completed_orders (κ := Rat) grown built_sprinkler ⟨.exact, .scalar⟩
  have completed := completes ["Wet", "Snow", "Rain", "Wet"]
  exact ⟨grown, built_sprinkler, completed, (accepts order).mpr completed.perm, loads _ (.inl rfl)⟩

end Model

end BayesDiagram
