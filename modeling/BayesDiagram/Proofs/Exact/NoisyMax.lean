import Mathlib.Algebra.BigOperators.Ring.List
import Mathlib.Algebra.Order.BigOperators.Group.Finset
import BayesDiagram.Proofs.Exact.Canonicity
import BayesDiagram.Proofs.Exact.Enumeration
import BayesDiagram.Proofs.Inference.Preservation
import BayesDiagram.Proofs.Network.Rows

/-! The noisy-max construction. It evaluates to the steps of a closed form, the leak times one ratio
for each parent; where the sums of the entries have that form, it gives the same root as
enumeration. -/
namespace BayesDiagram

/-! ### The closed form -/

def before (F : Nat → Rat) : Nat → Rat
  | 0 => 0
  | i + 1 => F i

namespace ConditionalTable

variable (t : ConditionalTable Rat)

def upTo (parents : List Nat) (i : Nat) : Rat :=
  ∑ j ∈ Finset.range (i + 1), t.entry (j :: parents)

def leak (i : Nat) : Rat :=
  t.upTo (List.replicate t.parents.length 0) i

/-- The sum with all parents at zero but one. -/
def cause (k value i : Nat) : Rat :=
  t.upTo ((List.replicate t.parents.length 0).set k value) i

def causeRatio (i k value : Nat) : Rat :=
  if value = 0 then 1 else t.cause k value i / t.leak i

/-- The distribution function of the head when all parents act on their own. -/
def noisyMaxUpTo (parents : List Nat) (i : Nat) : Rat :=
  if t.leak i = 0 then 0
  else t.leak i * (parents.zipIdx.map fun (value, k) => t.causeRatio i k value).prod

def noisyMaxAt (parents : List Nat) (i : Nat) : Rat :=
  t.noisyMaxUpTo parents i - before (t.noisyMaxUpTo parents) i

variable {t}

theorem upTo_sub_before (parents : List Nat) (i : Nat) :
    t.upTo parents i - before (t.upTo parents) i = t.entry (i :: parents) := by
  cases i with
  | zero => simp [upTo, before]
  | succ i => simp [upTo, before, Finset.sum_range_succ _ (i + 1)]

theorem noisyMaxAt_eq_entry {parents : List Nat} {i : Nat}
    (closed : ∀ j ≤ i, t.upTo parents j = t.noisyMaxUpTo parents j) :
    t.noisyMaxAt parents i = t.entry (i :: parents) := by
  rw [← upTo_sub_before, noisyMaxAt, closed i (Nat.le_refl i)]
  cases i with
  | zero => rfl
  | succ i => rw [before, before, closed i (Nat.le_succ i)]

theorem singleCause_none (i : Nat) :
    t.singleCause i none = i :: List.replicate t.parents.length 0 := by
  rw [singleCause, List.map_const', List.length_range]

theorem singleCause_some (i k value : Nat) :
    t.singleCause i (some (k, value)) = i :: (List.replicate t.parents.length 0).set k value := by
  rw [singleCause]
  congr 1
  refine List.ext_getElem (by simp) fun j _ _ => ?_
  simp [List.getElem_set, eq_comm]

theorem cumulative_eq_sum (cause : Option (Nat × Nat)) (i : Nat) :
    t.cumulative cause i = ∑ j ∈ Finset.range (i + 1), t.entry (t.singleCause j cause) := by
  induction i with
  | zero =>
    rw [Finset.sum_range_one]
    show -0 + t.entry _ = _
    rw [neg_zero, zero_add]
  | succ i ih =>
    rw [Finset.sum_range_succ, ← ih]
    rfl

theorem cumulative_none (i : Nat) : t.cumulative none i = t.leak i := by
  simp only [cumulative_eq_sum, singleCause_none, leak, upTo]

theorem cumulative_some (k value i : Nat) :
    t.cumulative (some (k, value)) i = t.cause k value i := by
  simp only [cumulative_eq_sum, singleCause_some, cause, upTo]

end ConditionalTable

namespace Network

variable {n : Network Rat} {t : ConditionalTable Rat}

theorem leak_nonneg (valid : (n.checkTable t : Except (Error Rat) Unit) = .ok ()) (i : Nat) :
    0 ≤ t.leak i :=
  Finset.sum_nonneg fun _ _ => (entry_mem_unit valid _).1

end Network

/-! ### What the construction computes -/

namespace Compiler

variable {config : StoreConfig Rat} (noTolerance : config.tolerance = 0) {c : Compiler Rat}
  {t : ConditionalTable Rat} {a : Bit → Bool}

theorem ratio_eq_causeRatio (i k value : Nat) : ratio t i k value = t.causeRatio i k value := by
  rw [ratio, ConditionalTable.causeRatio, ConditionalTable.cumulative_some,
    ConditionalTable.cumulative_none]

theorem inDomain_spelled {names : List String} :
    c.network.InDomain names (names.map (c.spelled · a)) ↔
      ∀ name ∈ names, c.spelled name a < c.network.arityOf name := by
  rw [Network.InDomain, List.forall₂_map_right_iff, List.forall₂_same]

theorem productOf_pointwise (i : Nat) (parents : List (String × Nat))
    (start : (Bit → Bool) → Rat) :
    productOf (Meaning.pointwise noTolerance) c t i parents start a =
      start a * (parents.map fun (parent, k) =>
        valuesOf (Meaning.pointwise noTolerance) c parent (ratio t i k) a).prod := by
  induction parents generalizing start with
  | nil => exact (mul_one _).symm
  | cons entry parents ih =>
    rw [List.map_cons, List.prod_cons, ← mul_assoc]
    exact ih _

theorem ratios_prod_outside (i : Nat)
    (outside : ¬c.network.InDomain t.parents (t.parents.map (c.spelled · a))) :
    (t.parents.zipIdx.map fun (parent, k) =>
      valuesOf (Meaning.pointwise noTolerance) c parent (ratio t i k) a).prod = 0 := by
  rw [inDomain_spelled] at outside
  push Not at outside
  obtain ⟨name, mem, beyond⟩ := outside
  rw [← List.zipIdx_map_fst 0 t.parents, List.mem_map] at mem
  obtain ⟨entry, mem, rfl⟩ := mem
  refine List.prod_eq_zero (List.mem_map.mpr ⟨entry, mem, ?_⟩)
  exact (valuesOf_pointwise _).trans (if_neg (not_lt.mpr beyond))

theorem ratios_prod_inside (i : Nat)
    (inside : c.network.InDomain t.parents (t.parents.map (c.spelled · a))) :
    (t.parents.zipIdx.map fun (parent, k) =>
      valuesOf (Meaning.pointwise noTolerance) c parent (ratio t i k) a).prod =
    ((t.parents.map (c.spelled · a)).zipIdx.map fun (value, k) => t.causeRatio i k value).prod := by
  rw [inDomain_spelled] at inside
  rw [List.zipIdx_map, List.map_map]
  refine congrArg List.prod (List.map_congr_left fun entry mem => ?_)
  have below := inside entry.1 (List.fst_mem_of_mem_zipIdx mem)
  exact (valuesOf_pointwise _).trans ((if_pos below).trans (ratio_eq_causeRatio _ _ _))

theorem cumulativeOf_pointwise (i : Nat) (leak : 0 ≤ t.leak i) :
    cumulativeOf (Meaning.pointwise noTolerance) c t i a =
      if c.network.InDomain t.parents (t.parents.map (c.spelled · a)) then
        t.noisyMaxUpTo (t.parents.map (c.spelled · a)) i
      else 0 := by
  rw [cumulativeOf, ConditionalTable.cumulative_none, ConditionalTable.noisyMaxUpTo]
  by_cases zero : t.leak i = 0
  · rw [if_neg (not_lt.mpr zero.le), if_pos zero, ite_self]
    exact zero
  · rw [if_pos (lt_of_le_of_ne leak (Ne.symm zero)), if_neg zero, productOf_pointwise]
    split
    · next inside =>
      rw [ratios_prod_inside noTolerance i inside]
      rfl
    · next outside => rw [ratios_prod_outside noTolerance i outside, mul_zero]

theorem stepsOf_concat (values : List Nat) (i : Nat) (below : i < c.network.arityOf t.head)
    (start : ((Bit → Bool) → Rat) × ((Bit → Bool) → Rat)) :
    let steps := stepsOf (Meaning.pointwise noTolerance) c t values start
    let next := stepsOf (Meaning.pointwise noTolerance) c t (values ++ [i]) start
    next.1 a = steps.1 a + (if c.spelled t.head a = i then
        cumulativeOf (Meaning.pointwise noTolerance) c t i a - steps.2 a else 0) ∧
      next.2 = cumulativeOf (Meaning.pointwise noTolerance) c t i := by
  intro steps next
  have unfolded : next = stepsOf (Meaning.pointwise noTolerance) c t [i] steps :=
    List.foldl_append
  rw [unfolded]
  refine ⟨?_, rfl⟩
  show steps.1 a + valuesOf (Meaning.pointwise noTolerance) c t.head _ a *
    (cumulativeOf (Meaning.pointwise noTolerance) c t i a - steps.2 a) = _
  rw [valuesOf_pointwise]
  by_cases here : c.spelled t.head a = i
  · simp [here, below]
  · simp [here]

theorem stepsOf_range (count : Nat) (within : count ≤ c.network.arityOf t.head) :
    let F (i : Nat) : Rat := cumulativeOf (Meaning.pointwise noTolerance) c t i a
    let steps := stepsOf (Meaning.pointwise noTolerance) c t (List.range count)
      (fun _ => 0, fun _ => 0)
    steps.1 a = (if c.spelled t.head a < count then
        F (c.spelled t.head a) - before F (c.spelled t.head a) else 0) ∧
      steps.2 a = before F count := by
  intro F
  induction count with
  | zero => exact ⟨rfl, rfl⟩
  | succ count ih =>
    obtain ⟨joint, last⟩ := ih (Nat.le_of_succ_le within)
    obtain ⟨joint', last'⟩ := stepsOf_concat noTolerance (a := a)
      (List.range count) count within (fun _ => 0, fun _ => 0)
    rw [← List.range_succ] at joint' last'
    refine ⟨?_, congrFun last' a⟩
    rw [joint', joint, last]
    rcases Nat.lt_trichotomy (c.spelled t.head a) count with lower | here | above
    · rw [if_pos lower, if_neg lower.ne, if_pos (Nat.lt_succ_of_lt lower), add_zero]
    · rw [here, if_neg (Nat.lt_irrefl count), if_pos rfl, if_pos (Nat.lt_succ_self count), zero_add]
    · rw [if_neg (Nat.lt_asymm above), if_neg above.ne', if_neg (by omega), add_zero]

theorem inDomain_scope {head : Nat} {parents : List Nat} :
    c.network.InDomain t.scope (head :: parents) ↔
      head < c.network.arityOf t.head ∧ c.network.InDomain t.parents parents :=
  List.forall₂_cons

theorem noisyMax_pointwise (leak : ∀ i, 0 ≤ t.leak i) :
    tableOf (Meaning.pointwise noTolerance) c t .noisyMax a =
      if c.network.InDomain t.scope (c.spelled t.head a :: t.parents.map (c.spelled · a)) then
        t.noisyMaxAt (t.parents.map (c.spelled · a)) (c.spelled t.head a)
      else 0 := by
  obtain ⟨joint, -⟩ := stepsOf_range noTolerance (c := c) (t := t) (a := a)
    (c.network.arityOf t.head) (Nat.le_refl _)
  have function := funext fun i =>
    cumulativeOf_pointwise noTolerance (c := c) (a := a) i (leak i)
  refine joint.trans ?_
  rw [function]
  by_cases head : c.spelled t.head a < c.network.arityOf t.head
  · rw [if_pos head]
    by_cases parents : c.network.InDomain t.parents (t.parents.map (c.spelled · a))
    · simp only [if_pos parents]
      rw [if_pos (inDomain_scope.mpr ⟨head, parents⟩)]
      rfl
    · have none : before (fun _ => 0) (c.spelled t.head a) = 0 := by
        cases c.spelled t.head a <;> rfl
      -- outside the domain of a parent the distribution function is zero, and so are its steps
      simp only [if_neg parents]
      rw [if_neg fun inside => parents (inDomain_scope.mp inside).2, none, sub_zero]
  · rw [if_neg head, if_neg fun inside => head (inDomain_scope.mp inside).1]

end Compiler

/-! ### Equal tables -/

namespace Compiler

variable {config : StoreConfig Rat} (noTolerance : config.tolerance = 0) {c : Compiler Rat}
  {t : ConditionalTable Rat} {w : Workspace Rat Rat}

theorem compileWith_again (reachable : Workspace.Reachable config w)
    (encoding : c.encoding.Sound) (accepts : c.Accepts t) {first second : Strategy}
    (equal : ∀ a, tableOf (Meaning.pointwise noTolerance) c t first a =
      tableOf (Meaning.pointwise noTolerance) c t second a) :
    ∃ f w₁ w₂, c.compileWith t first w = .ok f w₁ ∧ c.compileWith t second w₁ = .ok f w₂ := by
  have sound : w.store.Sound (Reading.exact noTolerance) := reachable.sound
  obtain ⟨f, w₁, d, run, grows, sound₁, shown, -, means⟩ :=
    compileWith_computes sound encoding accepts first
  obtain ⟨g, w₂, d', run', grows', sound₂, shown', -, means'⟩ :=
    compileWith_computes sound₁ encoding accepts second
  have stable := Store.stable_indexed (Store.matching_self noTolerance).1
    (Store.matching_self noTolerance).2
  have indexed : w.store.Indexed config := reachable.stable stable fun _ => Store.create_indexed
  have indexed₁ : w₁.store.Indexed config := (stable.compileWith c t first).of_ok indexed run
  have indexed₂ : w₂.store.Indexed config := (stable.compileWith c t second).of_ok indexed₁ run'
  have same : f = g := (grows'.rootShows shown).root_eq shown' sound₂ indexed₂.distinct
    fun a => by rw [means, means', equal]
  exact ⟨f, w₁, w₂, run, same ▸ run'⟩

theorem tableOf_eq (valid : (c.network.checkTable t : Except (Error Rat) Unit) = .ok ())
    (closed : ∀ parents, c.network.InDomain t.parents parents →
      ∀ i < c.network.arityOf t.head, t.upTo parents i = t.noisyMaxUpTo parents i)
    (strategy : Strategy) (a : Bit → Bool) :
    tableOf (Meaning.pointwise noTolerance) c t strategy a =
      t.entry (t.scope.map (c.spelled · a)) := by
  cases strategy with
  | enumeration => exact enumeration_pointwise
  | noisyMax =>
    rw [noisyMax_pointwise noTolerance (Network.leak_nonneg valid)]
    split
    · next inside =>
      obtain ⟨head, parents⟩ := inDomain_scope.mp inside
      exact ConditionalTable.noisyMaxAt_eq_entry fun j le =>
        closed _ parents j (Nat.lt_of_le_of_lt le head)
    · next outside => exact (entry_eq_zero valid outside).symm

/-- In every workspace on a run, the noisy-max construction of a valid table over encoded variables
evaluates to the steps of its closed form, and to zero at codes of no value; where the sums of the
entries have that form, noisy-max and enumeration give one root. -/
theorem noisyMax_closedForm (noTolerance : config.tolerance = 0)
    (reachable : Workspace.Reachable config w) (allocated : c.encoding.Allocated)
    (valid : (c.network.checkTable t : Except (Error Rat) Unit) = .ok ())
    (encodes : c.Encodes t) :
    (∃ f w', c.compileWith t .noisyMax w = .ok f w' ∧
      ∀ assignment, c.encoding.Assigned assignment t.scope →
        ∃ head parents, c.encoding.Decodes assignment t.scope (head :: parents) ∧
          w'.store.evaluate f assignment =
            .ok (some (if c.network.InDomain t.scope (head :: parents) then
              t.noisyMaxAt parents head else 0))) ∧
    ((∀ parents, c.network.InDomain t.parents parents →
        ∀ i < c.network.arityOf t.head, t.upTo parents i = t.noisyMaxUpTo parents i) →
      ∀ first second : Strategy, ∃ f w₁ w₂, c.compileWith t first w = .ok f w₁ ∧
        c.compileWith t second w₁ = .ok f w₂) := by
  have accepts := encodes.accepts valid
  refine ⟨?_, fun closed first second => ?_⟩
  · have sound : w.store.Sound (Reading.exact noTolerance) := reachable.sound
    obtain ⟨f, w', d, run, -, sound', shown, bits, means⟩ :=
      compileWith_computes sound allocated.sound accepts .noisyMax
    refine ⟨f, w', run, fun assignment assigned => ?_⟩
    obtain ⟨decodes, evaluates⟩ := evaluate_decoded sound' shown bits accepts assigned
    refine ⟨_, _, decodes, ?_⟩
    rw [evaluates, means, noisyMax_pointwise noTolerance (Network.leak_nonneg valid)]
  · refine compileWith_again noTolerance reachable allocated.sound accepts fun a => ?_
    rw [tableOf_eq noTolerance valid closed, tableOf_eq noTolerance valid closed]

theorem closed_alarm {parents : List Nat}
    (inside : alarm.network.InDomain ["Fire", "Burglar"] parents) {i : Nat} (below : i < 2) :
    ConditionalTable.alarm.upTo parents i = ConditionalTable.alarm.noisyMaxUpTo parents i := by
  cases inside with
  | cons fire rest =>
    cases rest with
    | cons burglar rest =>
      cases rest
      have all : ∀ fire < 3, ∀ burglar < 2, ∀ i < 2,
          ConditionalTable.alarm.upTo [fire, burglar] i =
            ConditionalTable.alarm.noisyMaxUpTo [fire, burglar] i := by decide +kernel
      exact all _ fire _ burglar i below

theorem noisyMax_closedForm_alarm : ∃ f w₁ w₂,
    alarm.compileWith .alarm .noisyMax (⟨Store.exact, #[]⟩ : Workspace Rat Rat) = .ok f w₁ ∧
    alarm.compileWith .alarm .enumeration w₁ = .ok f w₂ ∧
    w₁.store.evaluate f (fun bit => some (bit.id != 1)) = .ok (some (9 / 10)) ∧
    w₁.store.evaluate f (fun _ => some true) = .ok (some 0) := by
  have created : Workspace.Reachable .exact (⟨Store.exact, #[]⟩ : Workspace Rat Rat) := .created rfl
  obtain ⟨⟨f, w₁, run, evaluates⟩, agree⟩ := noisyMax_closedForm rfl created allocated_alarm
    checkTable_alarm encodes_alarm
  obtain ⟨g, w, w₂, first, second⟩ :=
    agree (fun _ inside _ => closed_alarm inside) .noisyMax .enumeration
  obtain ⟨rfl, rfl⟩ : f = g ∧ w₁ = w := by
    rw [run] at first
    injection first with root left
    exact ⟨root, left⟩
  refine ⟨f, w₁, w₂, run, second, ?_, ?_⟩
  · obtain ⟨head, parents, decodes, value⟩ := evaluates (fun bit => some (bit.id != 1))
      fun _ _ _ _ => ⟨_, rfl⟩
    have here : alarm.encoding.Decodes (fun bit => some (bit.id != 1))
      ConditionalTable.alarm.scope [1, 2, 1] := .cons rfl (.cons rfl (.cons rfl .nil))
    obtain ⟨rfl, rfl⟩ := List.cons.inj (decodes.unique here)
    rw [value]
    decide +kernel
  · obtain ⟨head, parents, decodes, value⟩ := evaluates (fun _ => some true)
      fun _ _ _ _ => ⟨_, rfl⟩
    have here : alarm.encoding.Decodes (fun _ => some true)
      ConditionalTable.alarm.scope [1, 3, 1] := .cons rfl (.cons rfl (.cons rfl .nil))
    obtain ⟨rfl, rfl⟩ := List.cons.inj (decodes.unique here)
    rw [value]
    decide +kernel

end Compiler

end BayesDiagram
