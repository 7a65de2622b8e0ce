import BayesDiagram.Failure
import Mathlib.Data.List.Forall2

/-! Computations that may fail, one after the other. -/
namespace BayesDiagram

variable {α β ε σ : Type}

theorem bind_eq_ok {step : Except ε α} {next : α → Except ε β} {result : β} :
    (step >>= next) = .ok result ↔ ∃ answer, step = .ok answer ∧ next answer = .ok result := by
  cases step with
  | error e => exact ⟨nofun, nofun⟩
  | ok answer =>
    refine ⟨fun run => ⟨answer, rfl, run⟩, ?_⟩
    rintro ⟨_, same, run⟩
    cases same
    exact run

theorem bind_eq_error {step : Except ε α} {next : α → Except ε β} {e : ε} :
    (step >>= next) = .error e ↔
      step = .error e ∨ ∃ answer, step = .ok answer ∧ next answer = .error e := by
  cases step with
  | error e' => simp [bind, Except.bind]
  | ok answer => simp [bind, Except.bind]

theorem bind_of_eq_ok {step : Except ε α} {next : α → Except ε β} {answer : α}
    (run : step = .ok answer) : (step >>= next) = next answer := by
  rw [run]
  rfl

theorem bind_unit_eq_ok {step : Except ε Unit} {next : Unit → Except ε β} {result : β} :
    (step >>= next) = .ok result ↔ step = .ok () ∧ next () = .ok result :=
  bind_eq_ok.trans ⟨fun ⟨_, here, later⟩ => ⟨here, later⟩, fun both => ⟨(), both⟩⟩

theorem map_eq_ok {step : Except ε α} {f : α → β} {result : β} :
    step.map f = .ok result ↔ ∃ answer, step = .ok answer ∧ f answer = result := by
  cases step with
  | error e => exact ⟨nofun, nofun⟩
  | ok answer => simp [Except.map]

theorem mapM_eq_ok {f : α → Except ε β} {items : List α} {results : List β} :
    items.mapM f = .ok results ↔
      List.Forall₂ (fun item result => f item = .ok result) items results := by
  induction items generalizing results with
  | nil =>
    rw [List.mapM_nil, List.forall₂_nil_left_iff]
    exact ⟨fun same => (Except.ok.inj same).symm, fun same => same ▸ rfl⟩
  | cons item items ih =>
    simp only [List.mapM_cons, bind_eq_ok, ih, List.forall₂_cons_left_iff]
    constructor
    · rintro ⟨answer, found, rest, follows, same⟩
      exact ⟨answer, rest, found, follows, (Except.ok.inj same).symm⟩
    · rintro ⟨answer, rest, found, follows, rfl⟩
      exact ⟨answer, found, rest, follows, rfl⟩

theorem exists_mapM_eq_ok {f : α → Except ε β} {items : List α}
    (answers : ∀ item ∈ items, ∃ answer, f item = .ok answer) :
    ∃ results, items.mapM f = .ok results := by
  induction items with
  | nil => exact ⟨[], rfl⟩
  | cons item items ih =>
    obtain ⟨answer, found⟩ := answers item (.head items)
    obtain ⟨results, run⟩ := ih fun other later => answers other (.tail item later)
    exact ⟨answer :: results, by rw [List.mapM_cons, found, run]; rfl⟩

theorem answer_of_mapM_eq_ok {f : α → Except ε β} {items : List α} {results : List β}
    (run : items.mapM f = .ok results) {item : α} (mem : item ∈ items) :
    ∃ answer, f item = .ok answer := by
  rw [mapM_eq_ok] at run
  induction run with
  | nil => exact absurd mem List.not_mem_nil
  | cons found _ ih =>
    rcases List.mem_cons.mp mem with rfl | later
    · exact ⟨_, found⟩
    · exact ih later

theorem mem_of_mapM_eq_ok {f : α → Except ε β} {items : List α} {results : List β}
    (run : items.mapM f = .ok results) {result : β} :
    result ∈ results ↔ ∃ item ∈ items, f item = .ok result := by
  rw [mapM_eq_ok] at run
  induction run with
  | nil => simp
  | cons found _ ih =>
    rw [List.mem_cons, List.exists_mem_cons_iff, found, Except.ok.injEq, ih, eq_comm]

theorem mapM_of_forall {f : α → Except ε β} {g : α → β} {items : List α}
    (found : ∀ item ∈ items, f item = .ok (g item)) : items.mapM f = .ok (items.map g) := by
  rw [mapM_eq_ok, List.forall₂_map_right_iff, List.forall₂_same]
  exact found

theorem exists_of_mapM_eq_error {f : α → Except ε β} {items : List α} {e : ε}
    (failed : items.mapM f = .error e) : ∃ item ∈ items, f item = .error e := by
  induction items with
  | nil => cases failed
  | cons item items ih =>
    rw [List.mapM_cons, bind_eq_error] at failed
    rcases failed with here | ⟨answer, -, failed⟩
    · exact ⟨item, .head items, here⟩
    · rcases bind_eq_error.mp failed with later | ⟨results, -, failed⟩
      · obtain ⟨other, mem, failed⟩ := ih later
        exact ⟨other, .tail item mem, failed⟩
      · cases failed

theorem mapM_cases {f : α → Except ε β} {g : α → β} (items : List α)
    (answers : ∀ item answer, f item = .ok answer → answer = g item) :
    items.mapM f = .ok (items.map g) ∨
      ∃ item ∈ items, ∃ e, f item = .error e ∧ items.mapM f = .error e := by
  cases run : items.mapM f with
  | error e =>
    obtain ⟨item, mem, failed⟩ := exists_of_mapM_eq_error run
    exact .inr ⟨item, mem, e, failed, rfl⟩
  | ok results =>
    have known : List.Forall₂ (fun item result => g item = result) items results :=
      (mapM_eq_ok.mp run).imp fun item result found => (answers item result found).symm
    rw [← List.forall₂_map_left_iff (f := g), List.forall₂_eq_eq_eq] at known
    exact .inl (congrArg Except.ok known.symm)

theorem exists_of_forall₂ {r : α → β → Prop} {items : List α} {results : List β}
    (all : List.Forall₂ r items results) {item : α} (mem : item ∈ items) :
    ∃ result ∈ results, r item result := by
  induction all with
  | nil => exact absurd mem List.not_mem_nil
  | cons here _ ih =>
    rcases List.mem_cons.mp mem with rfl | later
    · exact ⟨_, .head _, here⟩
    · obtain ⟨result, mem, holds⟩ := ih later
      exact ⟨result, .tail _ mem, holds⟩

theorem forM_eq_ok {f : α → Except ε Unit} {items : List α} :
    items.forM f = .ok () ↔ ∀ item ∈ items, f item = .ok () := by
  induction items with
  | nil => exact ⟨fun _ item mem => absurd mem List.not_mem_nil, fun _ => rfl⟩
  | cons item items ih =>
    show (f item >>= fun _ => items.forM f) = .ok () ↔ _
    rw [bind_unit_eq_ok, List.forall_mem_cons, ← ih]

theorem forM_eq_error {f : α → Except ε Unit} {before after : List α} {item : α} {e : ε}
    (passes : ∀ other ∈ before, f other = .ok ()) (fails : f item = .error e) :
    (before ++ item :: after).forM f = .error e := by
  induction before with
  | nil =>
    show (f item >>= fun _ => after.forM f) = _
    rw [fails]
    rfl
  | cons first before ih =>
    show (f first >>= fun _ => (before ++ item :: after).forM f) = _
    rw [bind_of_eq_ok (passes first (.head before))]
    exact ih fun other later => passes other (.tail first later)

theorem exists_of_forM_eq_error {f : α → Except ε Unit} {items : List α} {e : ε}
    (failed : items.forM f = .error e) : ∃ item ∈ items, f item = .error e := by
  induction items with
  | nil => cases failed
  | cons item items ih =>
    rcases bind_eq_error.mp failed with here | ⟨-, -, later⟩
    · exact ⟨item, .head items, here⟩
    · obtain ⟨other, mem, failed⟩ := ih later
      exact ⟨other, .tail item mem, failed⟩

theorem ite_eq_ok {c : Prop} [Decidable c] {e : ε} :
    (if c then .ok () else .error e : Except ε Unit) = .ok () ↔ c := by
  split
  · next holds => exact iff_of_true rfl holds
  · next fails => exact iff_of_false nofun fails

theorem eq_ok_of_isOk {check : Except ε Unit} (passes : check.isOk = true) : check = .ok () := by
  cases check with
  | ok => rfl
  | error => cases passes

/-! ### Failures -/

namespace Failure

variable {answer : α} {step : Except (Error σ) α}

theorem liftError_eq_ok : liftError step = .ok answer ↔ step = .ok answer := by
  cases step with
  | error e => exact ⟨nofun, nofun⟩
  | ok found => simp [liftError, Except.mapError]

theorem liftError_eq_error {e : Error σ} :
    liftError step = .error (.error e) ↔ step = .error e := by
  cases step with
  | error other => simp [liftError, Except.mapError]
  | ok found => exact ⟨nofun, nofun⟩

theorem liftError_ne_fault {f : Fault} : liftError step ≠ .error (.fault f) := by
  cases step <;> exact nofun

theorem liftError_bind {next : α → Except (Error σ) β} :
    liftError (step >>= next) = liftError step >>= fun answer => liftError (next answer) := by
  cases step <;> rfl

theorem liftError_forM {f : α → Except (Error σ) Unit} {items : List α} :
    liftError (items.forM f) = items.forM fun item => liftError (f item) := by
  induction items with
  | nil => rfl
  | cons item items ih =>
    show liftError (f item >>= fun _ => items.forM f) = _
    rw [liftError_bind, ih]
    rfl

theorem liftFault_eq_ok {step : Except Fault α} :
    (liftFault step : Except (Failure σ) α) = .ok answer ↔ step = .ok answer := by
  cases step with
  | error e => exact ⟨nofun, nofun⟩
  | ok found => simp [liftFault, Except.mapError]

theorem liftFault_ne_error {step : Except Fault α} {e : Error σ} :
    liftFault step ≠ .error (.error e) := by
  cases step <;> exact nofun

end Failure

end BayesDiagram
