import BayesDiagram.Proofs.Diagram.Preservation
import BayesDiagram.Proofs.Inference.PinDiscipline

/-! What no compilation and no question can break: a property that no write breaks holds in every
workspace on a run. -/
namespace BayesDiagram

open Store InferenceM

variable {σ κ : Type} {P : Store σ κ → Prop}

/-! ### Steps of inference -/

section Steps

variable {α : Type}

def PreservesStore (P : Store σ κ → Prop) (step : InferenceM σ κ α) : Prop :=
  Preserves (fun w => P w.store) step

theorem onStore_preserves {step : StoreM σ κ α} (preserves : Preserves P step) :
    PreservesStore P (onStore step) := by
  intro w holds
  have held := preserves w.store holds
  rw [onStore]
  cases run : step w.store with
  | ok answer s =>
    rw [run] at held
    exact held
  | error fault s =>
    rw [run] at held
    exact held

theorem read_preserves (read : Store σ κ → Except Fault α) : PreservesStore P (inspect read) :=
  onStore_preserves (inspect_preserves read)

theorem checked_preserves (check : Except (Error σ) α) :
    PreservesStore P (checked check : InferenceM σ κ α) := by
  cases check with
  | ok answer => exact .pure answer
  | error e => exact .throw _

theorem record_preserves (event : Event σ) :
    PreservesStore P (record event : InferenceM σ κ Unit) := fun _ holds => holds

end Steps

variable [Scalar σ] [Coefficient σ κ]

namespace Store.Stable

variable (stable : Stable P)

include stable

/-! ### Compilation -/

section Compilation

variable (c : Compiler σ) (t : ConditionalTable σ)

theorem enumerate : PreservesStore P (c.enumerate t) :=
  .bind (checked_preserves _) fun _ => onStore_preserves (stable.ofOrderedTree _)

theorem overValues (name : String) (valueAt : Nat → σ) :
    PreservesStore P (c.overValues name valueAt) :=
  .bind (checked_preserves _) fun _ => .bind (checked_preserves _) fun _ =>
    onStore_preserves (stable.ofOrderedTree _)

theorem cumulativeRoot (i : Nat) : PreservesStore P (c.cumulativeRoot t i) := by
  refine .bind (onStore_preserves (stable.constant _)) fun leak => .ite ?_ (.pure leak)
  refine .foldlM (fun product entry => ?_) leak
  exact .bind (stable.overValues c _ _) fun _ => onStore_preserves (stable.apply _ _ _)

theorem noisyMax : PreservesStore P (c.noisyMax t) := by
  refine .bind (checked_preserves _) fun v => ?_
  refine .bind (.forM fun parent => .map _ (checked_preserves _)) fun _ => ?_
  refine .bind (onStore_preserves (stable.constant 0)) fun zero => ?_
  refine .bind (.foldlM (fun roots i => ?_) (zero, zero)) fun _ => .pure _
  refine .bind (stable.cumulativeRoot c t i) fun current => ?_
  refine .bind (stable.overValues c _ _) fun indicator => ?_
  refine .bind (onStore_preserves (stable.apply _ _ _)) fun step => ?_
  refine .bind (onStore_preserves (stable.apply _ _ _)) fun term => ?_
  exact .bind (onStore_preserves (stable.apply _ _ _)) fun _ => .pure _

theorem compileWith (strategy : Strategy) : PreservesStore P (c.compileWith t strategy) := by
  cases strategy with
  | enumeration => exact stable.enumerate c t
  | noisyMax => exact stable.noisyMax c t

theorem compile : PreservesStore P (c.compile t) := by
  refine .bind (checked_preserves _) fun bits => ?_
  refine .bind (stable.compileWith c t _) fun root => ?_
  refine .bind (onStore_preserves (stable.pin root)) fun _ => ?_
  refine .bind (.map _ (onStore_preserves stable.flushUnderPressure)) fun _ => ?_
  refine .bind (read_preserves _) fun nodeCount => .bind (read_preserves _) fun support => ?_
  exact .bind (record_preserves _) fun _ => .pure _

end Compilation

/-! ### Questions -/

theorem replace (old result : Root) : Preserves P (Factor.replace old result) :=
  .bind (stable.pin result) fun _ => .bind (stable.unpin old) fun _ =>
    .bind (.map _ stable.flushUnderPressure) fun _ => .pure result

theorem product (roots : List Root) : Preserves P (Factor.product roots) := by
  cases roots with
  | nil => exact .bind (stable.constant 1) fun one => .bind (stable.pin one) fun _ => .pure one
  | cons first rest =>
    refine .foldlM (fun product factor => ?_) first
    refine .bind (stable.apply product factor .product) fun result => ?_
    refine .bind (stable.pin result) fun _ => .bind (stable.unpin product) fun _ => ?_
    refine .bind (stable.unpin factor) fun _ => ?_
    exact .bind (.map _ stable.flushUnderPressure) fun _ => .pure result

theorem eliminateBit (operations : BitOperations) (root : Root) (bit : Bit) :
    Preserves P (Factor.eliminateBit operations root bit) := by
  rw [Factor.eliminateBit]
  split
  · exact .pure root
  · exact .bind (stable.marginalize root bit .sum) (stable.replace root)
  · exact .bind (stable.restrict root bit true) (stable.replace root)
  · exact .bind (stable.restrict root bit false) (stable.replace root)

theorem sweepVariable (operations : BitOperations) (query : NameSet)
    (factors : List Factor × Nat) (entry : String × List Bit) :
    Preserves P (Factor.sweepVariable operations query factors entry) := by
  refine .ite (.pure _) (.bind (stable.product _) fun root => ?_)
  exact .bind (.foldlM (stable.eliminateBit operations) root) fun _ => .pure _

theorem sweep (operations : BitOperations) (query : NameSet) (order : List (String × List Bit))
    (factors : List Factor) : Preserves P (Factor.sweep operations query order factors) :=
  .foldlM (stable.sweepVariable operations query) _

theorem normalize (result : Root) (query : NameSet) (queryBits : List Bit) :
    PreservesStore P (Engine.normalize result query queryBits) := by
  have sumOut (total : Root) (bit : Bit) : Preserves P (Engine.normalize.sumOut total bit) :=
    .bind (stable.marginalize total bit .sum) (stable.replace total)
  refine .bind (onStore_preserves (stable.pin result)) fun _ => ?_
  refine .bind (onStore_preserves (.foldlM sumOut result)) fun total => ?_
  refine .bind (onStore_preserves (stable.unpin total)) fun _ => ?_
  refine .bind (read_preserves _) fun value => ?_
  split
  · refine .bind (read_preserves _) fun bits => ?_
    exact .bind (onStore_preserves (stable.unpin result)) fun _ => .throw _
  · refine .ite (.bind (record_preserves _) fun _ => ?_) ?_
    · refine .bind (onStore_preserves (.bind (stable.constant 0) (stable.replace result))) ?_
      exact fun _ => .pure _
    · refine .bind (onStore_preserves ?_) fun _ => .pure _
      exact .bind (stable.apply result total .divide) (stable.replace result)

theorem answer (e : Engine) (query relevant : NameSet) (operations : BitOperations) :
    PreservesStore P (e.answer query relevant operations) := by
  refine .bind (onStore_preserves ?_) fun result => ?_
  · refine .bind (.forM fun factor => stable.pin factor.root) fun _ => ?_
    exact .bind (stable.sweep operations query _ _) fun left => stable.product _
  · exact .bind (stable.normalize result query _) fun _ => .bind (record_preserves _) fun _ =>
      .pure _

theorem run (e : Engine) (query : NameSet) (evidence : Evidence) (answered : Bool) :
    PreservesStore P (e.run query evidence answered) := by
  intro w holds
  have outcomes := e.run_outcomes query evidence answered w
  generalize e.run query evidence answered w = result at outcomes
  cases outcomes with
  | refused => exact holds
  | estimated => exact holds
  | answered => exact stable.answer e query _ _ _ holds

end Store.Stable

/-! ### Runs -/

namespace Workspace

variable {config : StoreConfig σ} {w : Workspace σ κ}

omit [Scalar σ] [Coefficient σ κ] in
theorem left_eq_endState {α : Type}
    (result : EStateM.Result (Failure σ) (Workspace σ κ) α) : left result = endState result := by
  cases result <;> rfl

/-- A property of new stores that no write breaks holds in every workspace on a run. -/
theorem Reachable.stable (reachable : Reachable config w) (stable : Store.Stable P)
    (new : ∀ s, Store.create config = .ok s → P s) : P w.store := by
  induction reachable with
  | created made => exact new _ made
  | @stepped w w' _ step ih =>
    cases step with
    | requested => exact stable.after ih _
    | compiled =>
      rw [left_eq_endState]
      exact stable.compile _ _ w ih
    | asked =>
      rw [left_eq_endState]
      exact stable.run _ _ _ _ w ih

end Workspace

end BayesDiagram
