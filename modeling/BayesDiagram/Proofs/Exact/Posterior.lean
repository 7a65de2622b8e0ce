import BayesDiagram.Proofs.Exact.Elimination
import BayesDiagram.Proofs.Inference.Request

/-! Posteriors over exact numbers. The answer to a query is the product of the relevant tables,
summed over the hidden variables at the observed values of the others, and divided by the sum of
that over the queried variables. -/
namespace BayesDiagram

open Factor BayesDiagram.Valuation

variable {config : StoreConfig Rat} {noTolerance : config.tolerance = 0} {e : Engine}
  {query relevant : NameSet} {evidence : Evidence} {operations : BitOperations} {name : String}
  {diagramOf : String → Diagram Rat} {left : List (Live Rat)}

namespace Evidence

/-- The sum of a product of factors over the values of the hidden variables, with the observed ones
fixed. -/
def weight (evidence : Evidence) (arity : String → Nat) (query relevant : NameSet)
    (factor : String → Choice → Rat) (v : Choice) : Rat :=
  sumOver arity (relevant.toList.filter (hides query evidence))
    (fun u => (relevant.toList.map (factor · u)).prod) (evidence.observe v)

/-- The sum of the weights over the values of the queried variables. -/
def mass (evidence : Evidence) (arity : String → Nat) (query relevant : NameSet)
    (factor : String → Choice → Rat) : Rat :=
  sumOver arity query.toList (evidence.weight arity query relevant factor) fun _ => 0

theorem weight_congr {arity arity' : String → Nat} {factor factor' : String → Choice → Rat}
    (arities : ∀ name ∈ relevant, arity name = arity' name)
    (factors : ∀ name ∈ relevant, factor name = factor' name) :
    evidence.weight arity query relevant factor =
      evidence.weight arity' query relevant factor' := by
  funext v
  refine (sumOver_bound fun name mem => arities name ?_).trans (sumOver_congr fun u _ => ?_)
  · exact Std.ExtTreeSet.mem_toList.mp (List.mem_of_mem_filter mem)
  · refine congrArg List.prod (List.map_congr_left fun name mem => ?_)
    rw [factors name (Std.ExtTreeSet.mem_toList.mp mem)]

theorem mass_congr {arity arity' : String → Nat} {factor factor' : String → Choice → Rat}
    (isRelevant : ∀ name ∈ query, name ∈ relevant)
    (arities : ∀ name ∈ relevant, arity name = arity' name)
    (factors : ∀ name ∈ relevant, factor name = factor' name) :
    evidence.mass arity query relevant factor = evidence.mass arity' query relevant factor' := by
  rw [mass, mass, weight_congr arities factors]
  exact sumOver_bound fun name mem =>
    arities name (isRelevant name (Std.ExtTreeSet.mem_toList.mp mem))

end Evidence

namespace Engine

def factorOf (e : Engine) (diagramOf : String → Diagram Rat) (name : String) (v : Choice) : Rat :=
  (diagramOf name).value (e.encoding.code v)

def Vanishes (e : Engine) (diagramOf : String → Diagram Rat) : Prop :=
  ∀ name ∈ e.graph.names, ∀ v : Choice, e.encoding.arityOf name ≤ v name →
    v name < e.encoding.codes name → e.factorOf diagramOf name v = 0

theorem total_live (sound : e.Sound)
    (checks : Checked Rat e query evidence relevant operations) (v : Choice) :
    total (e.live diagramOf relevant) (e.encoding.code v) =
      (relevant.toList.map (e.factorOf diagramOf · v)).prod := by
  have tabled (name : String) (mem : name ∈ relevant.toList) : ∃ t, e.tables[name]? = some t := by
    obtain ⟨t, found, -⟩ := sound.tabled name
      (mem_names_of_relevant sound checks (Std.ExtTreeSet.mem_toList.mp mem))
    exact ⟨t, found⟩
  rw [total, live, List.map_filterMap]
  congr 1
  generalize relevant.toList = names at tabled ⊢
  induction names with
  | nil => rfl
  | cons name names ih =>
    obtain ⟨t, found⟩ := tabled name (.head names)
    rw [List.filterMap_cons, found, List.map_cons, ← ih fun other mem => tabled other (.tail _ mem)]
    rfl

theorem unobserved_of_checked (checks : Checked Rat e query evidence relevant operations)
    (name : String) (queried : name ∈ query) : evidence[name]? = none := by
  have free := List.find?_eq_none.mp checks.apart name (Std.ExtTreeSet.mem_toList.mpr queried)
  exact Std.ExtTreeMap.getElem?_eq_none (mt Std.ExtTreeMap.contains_iff_mem.mpr free)

theorem mem_relevant_of_mem_query (sound : e.Sound)
    (checks : Checked Rat e query evidence relevant operations) (queried : name ∈ query) :
    name ∈ relevant :=
  (mem_relevant sound checks).mpr
    (.of_seed (List.mem_append_left _ (Std.ExtTreeSet.mem_toList.mpr queried)))

theorem mem_relevant_of_mem_evidence (sound : e.Sound)
    (checks : Checked Rat e query evidence relevant operations) (seen : name ∈ evidence) :
    name ∈ relevant :=
  (mem_relevant sound checks).mpr
    (.of_seed (List.mem_append_right _ (Std.ExtTreeMap.mem_keys.mpr seen)))

theorem total_left (sound : e.Sound) {base : Root → Nat} {s : Store Rat Rat}
    (holds : e.Holds diagramOf base s) (vanishes : e.Vanishes diagramOf)
    (checks : Checked Rat e query evidence relevant operations)
    (sweeps : Sweeps (pointwise noTolerance) operations query
      (e.order.map fun name => (name, e.encoding.bitsOf name)) (e.live diagramOf relevant) left)
    (v : Choice) :
    total left (e.encoding.code v) = evidence.weight e.encoding.arityOf query relevant
      (e.factorOf diagramOf) v := by
  have nodup : e.order.Nodup := sound.order.nodup_iff.mpr sound.nodup
  have assigned (name : String) (isRelevant : name ∈ relevant) :
      (evidence.role query name).Assigned operations (e.encoding.bitsOf name) :=
    (roles_of_checked sound checks isRelevant).2
  let handled := e.order.filter (relevant.contains ·)
  have mem_handled (name : String) : name ∈ handled ↔ name ∈ relevant := by
    rw [List.mem_filter, Std.ExtTreeSet.contains_iff_mem, sound.order.mem_iff]
    exact ⟨And.right, fun isRelevant => ⟨mem_names_of_relevant sound checks isRelevant, isRelevant⟩⟩
  have swept := total_sweep sound.encoding (scoped_live sound holds checks) nodup
    (fun name _ => List.not_mem_nil)
    (fun name mem => sound.encoded name (sound.order.mem_iff.mp mem))
    (fun name isRelevant => handles_of_assigned (assigned name isRelevant)) assigned sweeps
  have observed : evidence.observeAt handled v = evidence.observe v := by
    funext name
    by_cases mem : name ∈ handled
    · exact if_pos mem
    · have unobserved : name ∉ evidence := fun seen =>
        mem ((mem_handled name).mpr (mem_relevant_of_mem_evidence sound checks seen))
      rw [Evidence.observeAt, if_neg mem,
        Evidence.observe_of_none (Std.ExtTreeMap.getElem?_eq_none unobserved)]
  have perm : (handled.filter (Evidence.hides query evidence)).Perm
      (relevant.toList.filter (Evidence.hides query evidence)) := by
    refine List.Perm.filter _ ((List.perm_ext_iff_of_nodup (nodup.filter _)
      (NameSet.nodup_toList relevant)).mpr fun name => ?_)
    rw [mem_handled, Std.ExtTreeSet.mem_toList]
  calc total left (e.encoding.code v)
    _ = handled.foldl (fun f name =>
          (evidence.role query name).eliminate (e.encoding.codes name) name f)
          (fun v => total (e.live diagramOf relevant) (e.encoding.code v)) v := congrFun swept v
    _ = sumOver e.encoding.codes (handled.filter (Evidence.hides query evidence))
          (fun v => total (e.live diagramOf relevant) (e.encoding.code v))
          (evidence.observe v) := by
      rw [Evidence.foldl_eliminate (unobserved_of_checked checks) _ (nodup.filter _), observed]
    _ = sumOver e.encoding.codes (relevant.toList.filter (Evidence.hides query evidence))
          (fun u => (relevant.toList.map (e.factorOf diagramOf · u)).prod)
          (evidence.observe v) := by
      rw [sumOver_perm perm]
      exact sumOver_congr fun u _ => total_live sound checks u
    _ = _ := by
      -- codes of no value add nothing to the sum
      refine sumOver_narrow ((NameSet.nodup_toList relevant).filter _)
        (fun name _ => sound.encoding.arityOf_le_codes name) fun name mem u beyond inCodes => ?_
      have isRelevant := List.mem_of_mem_filter mem
      refine List.prod_eq_zero (List.mem_map.mpr ⟨name, isRelevant, ?_⟩)
      exact vanishes name (mem_names_of_relevant sound checks
        (Std.ExtTreeSet.mem_toList.mp isRelevant)) u beyond inCodes

theorem weight_eq_zero (sound : e.Sound) (vanishes : e.Vanishes diagramOf)
    (checks : Checked Rat e query evidence relevant operations) (queried : name ∈ query)
    {v : Choice} (beyond : e.encoding.arityOf name ≤ v name)
    (inCodes : v name < e.encoding.codes name) :
    evidence.weight e.encoding.arityOf query relevant (e.factorOf diagramOf) v = 0 := by
  have isRelevant := mem_relevant_of_mem_query sound checks queried
  refine (sumOver_congr fun u within => ?_).trans sumOver_zero
  have kept : name ∉ relevant.toList.filter (Evidence.hides query evidence) := by
    rw [List.mem_filter, not_and]
    intro _
    simp [Evidence.hides, Std.ExtTreeSet.contains_iff_mem.mpr queried]
  have here : u name = v name := by
    rw [within.others name kept,
      Evidence.observe_of_none (unobserved_of_checked checks name queried)]
  exact List.prod_eq_zero (List.mem_map.mpr ⟨name, Std.ExtTreeSet.mem_toList.mpr isRelevant,
    vanishes name (mem_names_of_relevant sound checks isRelevant) u (here ▸ beyond)
      (here ▸ inCodes)⟩)

/-- The likelihood of an answer is the mass of the evidence, and its diagram shows the weights
divided by the mass, or zero when the mass is zero. -/
theorem Answers.posterior (sound : e.Sound) {base : Root → Nat} {s : Store Rat Rat}
    (holds : e.Holds diagramOf base s) (vanishes : e.Vanishes diagramOf)
    (checks : Checked Rat e query evidence relevant operations) {d stored : Diagram Rat}
    {sum likelihood : Rat}
    (answers : Answers (pointwise noTolerance) e diagramOf query relevant operations left d sum
      likelihood stored) :
    likelihood = evidence.mass e.encoding.arityOf query relevant (e.factorOf diagramOf) ∧
      (likelihood = 0 → stored = .constant 0) ∧
      (likelihood ≠ 0 → ∀ v : Choice, stored.value (e.encoding.code v) =
        evidence.weight e.encoding.arityOf query relevant (e.factorOf diagramOf) v /
          likelihood) := by
  have weights (v : Choice) : d.value (e.encoding.code v) =
      evidence.weight e.encoding.arityOf query relevant (e.factorOf diagramOf) v := by
    rw [← total_left sound holds vanishes checks answers.sweeps]
    have means := congrFun answers.meaning (e.encoding.code v)
    rw [productOf_pointwise, List.map_map] at means
    exact means
  have mass : sum = evidence.mass e.encoding.arityOf query relevant (e.factorOf diagramOf) := by
    have summed := congrFun answers.summed (e.encoding.code fun _ => 0)
    rw [foldl_eliminate_blocks _ sound.encoding (NameSet.nodup_toList query) fun name mem =>
      sound.encoded name (mem_names_of_checked checks (Std.ExtTreeSet.mem_toList.mp mem))] at summed
    calc sum
      _ = (Diagram.constant sum).value (e.encoding.code fun _ => 0) :=
        (Diagram.value_constant sum).symm
      _ = sumOver e.encoding.codes query.toList (fun u => d.value (e.encoding.code u))
            fun _ => 0 := summed
      _ = sumOver e.encoding.codes query.toList
            (evidence.weight e.encoding.arityOf query relevant (e.factorOf diagramOf))
            fun _ => 0 := sumOver_congr fun u _ => weights u
      _ = _ := sumOver_narrow (NameSet.nodup_toList query)
        (fun name _ => sound.encoding.arityOf_le_codes name) fun name mem u =>
          weight_eq_zero sound vanishes checks (Std.ExtTreeSet.mem_toList.mp mem)
  cases answers.normalized with
  | impossible zero put =>
    have sumZero : sum = 0 := beq_iff_eq.mp zero
    refine ⟨sumZero.symm.trans mass, fun _ => put.eq_round noTolerance, fun nonzero => ?_⟩
    exact absurd rfl nonzero
  | divided nonzero divides put =>
    refine ⟨mass, fun zero => ?_, fun _ v => ?_⟩
    · exact absurd (beq_iff_eq.mpr zero) (Bool.eq_false_iff.mp nonzero)
    · have quotient : _ = d.value (e.encoding.code v) / (Diagram.constant sum).value _ :=
        divides (e.encoding.code v)
      rw [put.value_eq noTolerance, quotient, Diagram.value_constant, weights]
      rfl

end Engine

end BayesDiagram
