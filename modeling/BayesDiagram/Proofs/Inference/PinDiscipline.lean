import BayesDiagram.Proofs.Diagram.Pins
import BayesDiagram.Proofs.Inference.Compilation
import BayesDiagram.Proofs.Inference.Sessions

/-! Who pins what. A question to an engine whose tables are pinned ends with one pin more, on the
posterior that it returns, or with the pins as they were, whatever the order and wherever the store
was flushed; a compilation pins the table that it returns and nothing else. -/
namespace BayesDiagram

variable {σ κ : Type}

inductive Encoding.Allocated : Encoding → Prop where
  | empty : Allocated {}
  | block {e e' : Encoding} {name : String} {arity : Nat} (allocated : Allocated e)
      (run : e.allocate name arity = .ok e') : Allocated e'

theorem Encoding.Allocated.sound {e : Encoding} (allocated : e.Allocated) : e.Sound := by
  induction allocated with
  | empty => exact ⟨[], encodes_empty⟩
  | block _ run ih =>
    obtain ⟨arities, encodes⟩ := ih
    exact ⟨_, encodes.allocate run⟩

theorem Encoding.Allocated.foldlM {e e' : Encoding} (allocated : e.Allocated)
    (arities : List (String × Nat))
    (run : arities.foldlM (fun e (name, arity) => e.allocate name arity) e = .ok e') :
    e'.Allocated := by
  induction arities generalizing e with
  | nil =>
    cases run
    exact allocated
  | cons v arities ih =>
    rw [List.foldlM_cons] at run
    obtain ⟨mid, first, run⟩ := bind_eq_ok.mp run
    exact ih (allocated.block first) run

def Workspace.left {α : Type} : EStateM.Result (Failure σ) (Workspace σ κ) α → Workspace σ κ
  | .ok _ w => w
  | .error _ w => w

variable [Scalar σ] [Coefficient σ κ] {config : StoreConfig σ} {R : Reading σ κ config}

namespace Store

variable {s s' : Store σ κ} {roots : List Root}

/-- A store later on has one pin more for each mention of some roots and no other pins, and what
was pinned is as it was. -/
structure Gains (roots : List Root) (s s' : Store σ κ) : Prop where
  pinCount : ∀ f, s'.pinCount f = s.pinCount f + roots.count f
  unchanged : ∀ f, s.isPinned f = true → Unchanged f s s'

structure Carries (R : Reading σ κ config) (s s' : Store σ κ) : Prop where
  sound : s'.Sound R
  spares : s.Spares s.pinCount s'

theorem Carries.refl (sound : s.Sound R) : s.Carries R s :=
  ⟨sound, fun _ _ _ shown => shown⟩

theorem Sound.ledger (sound : s.Sound R) : s.Ledger R s.pinCount [] :=
  ⟨sound, fun _ => rfl⟩

theorem Carries.gains (carries : s.Carries R s') (sound : s.Sound R)
    (ledger : s'.Ledger R s.pinCount roots) : s.Gains roots s' where
  pinCount := ledger.count
  unchanged f pinned := by
    obtain ⟨d, shown, keeps⟩ := sound.rootShows (sound.occupied_of_pinned pinned)
    exact shown.unchanged keeps.ordered
      (carries.spares f d (sound.pinCount_pos_iff.mpr pinned) shown)

end Store

open Store

variable {w w' : Workspace σ κ}

namespace Engine

variable {e : Engine} {query : NameSet} {evidence : Evidence} {answered : Bool}

def Pinned (e : Engine) (s : Store σ κ) : Prop :=
  ∀ (name : String) (t : CompiledTable), e.tables[name]? = some t → s.isPinned t.root = true

/-- The ways that a question may end, none of them a fault. Only a likelihood that is not constant
is found out after the store was touched. -/
inductive Tidy (s : Store σ κ) :
    EStateM.Result (Failure σ) (Workspace σ κ) (Outcome σ) → Prop where
  | posterior {p : Posterior σ} {w' : Workspace σ κ} (gains : s.Gains [p.root] w'.store) :
      Tidy s (.ok (.posterior p) w')
  | cost {size : Nat} {w' : Workspace σ κ} (untouched : w'.store = s) :
      Tidy s (.ok (.cost size) w')
  | notConstant {bits : List Nat} {w' : Workspace σ κ} (gains : s.Gains [] w'.store) :
      Tidy s (.error (.error (.notConstant bits)) w')
  | refused {err : Error σ} {w' : Workspace σ κ} (untouched : w'.store = s) :
      Tidy s (.error (.error err) w')

theorem Pinned.exists_diagramOf (pinned : e.Pinned w.store) (sound : w.store.Sound R) :
    ∃ diagramOf : String → Diagram κ, ∀ (name : String) (t : CompiledTable),
      e.tables[name]? = some t → w.store.RootShows t.root (diagramOf name) := by
  have shows (name : String) :
      ∃ d : Diagram κ, ∀ t : CompiledTable, e.tables[name]? = some t →
        w.store.RootShows t.root d := by
    cases found : e.tables[name]? with
    | none => exact ⟨.constant (Coefficient.ofScalar 0), fun _ => nofun⟩
    | some t =>
      obtain ⟨d, shown, -⟩ := sound.rootShows (sound.occupied_of_pinned (pinned name t found))
      exact ⟨d, fun _ same => Option.some.inj same ▸ shown⟩
  choose diagramOf shown using shows
  exact ⟨diagramOf, shown⟩

theorem tidy_of_outcomes (sound : w.store.Sound R) (pinned : e.Pinned w.store)
    {result : EStateM.Result (Failure σ) (Workspace σ κ) (Outcome σ)}
    (outcomes : Outcomes e query evidence answered w result) :
    Tidy w.store result ∧ w.store.Carries R (Workspace.left result).store := by
  cases outcomes with
  | refused => exact ⟨.refused rfl, .refl sound⟩
  | estimated => exact ⟨.cost rfl, .refl sound⟩
  | @answered relevant operations _ _ =>
    -- nothing is known of the order or of the scopes, only that there are diagrams to hold
    obtain ⟨diagramOf, shows⟩ := pinned.exists_diagramOf sound
    have shown (pair : Factor.Live κ) (mem : pair ∈ e.live diagramOf relevant) :
        w.store.RootShows pair.1.root pair.2 := by
      obtain ⟨name, -, t, found, rfl⟩ := mem_live.mp mem
      exact shows name t found
    obtain ⟨left, d, -, -, -, ends⟩ :=
      answer_cases (Valuation.blank R) operations query shown sound.ledger
    rcases ends with ⟨p, w', -, -, run, ledger, -, spares, -⟩ | ⟨bits, w', run, ledger, spares, -⟩
    · have carries : w.store.Carries R w'.store := ⟨ledger.sound, spares⟩
      rw [run]
      exact ⟨.posterior (carries.gains sound ledger), carries⟩
    · have carries : w.store.Carries R w'.store := ⟨ledger.sound, spares⟩
      rw [run]
      exact ⟨.notConstant (carries.gains sound ledger), carries⟩

theorem run_tidy (sound : w.store.Sound R) (pinned : e.Pinned w.store) (query : NameSet)
    (evidence : Evidence) (answered : Bool) :
    Tidy w.store (e.run query evidence answered w) ∧
      w.store.Carries R (Workspace.left (e.run query evidence answered w)).store :=
  tidy_of_outcomes
    (w := { w with journal := w.journal.push (.asked query.toList evidence.toList answered) })
    sound pinned (run_outcomes e query evidence answered w)

end Engine

namespace Compiler

variable {c : Compiler σ}

inductive Tidy (s : Store σ κ) :
    EStateM.Result (Failure σ) (Workspace σ κ) CompiledTable → Prop where
  | compiled {compiled : CompiledTable} {w' : Workspace σ κ}
      (gains : s.Gains [compiled.root] w'.store) : Tidy s (.ok compiled w')
  | failed {failure : Failure σ} {w' : Workspace σ κ} (gains : s.Gains [] w'.store) :
      Tidy s (.error failure w')

theorem compile_tidy (sound : w.store.Sound R) (encoding : c.encoding.Sound)
    (t : ConditionalTable σ) :
    Tidy w.store (c.compile t w) ∧
      w.store.Carries R (Workspace.left (c.compile t w)).store := by
  rcases compile_spec (Meaning.blank R) (t := t) sound.ledger encoding with
    ⟨compiled, w', run, ledger, spares, -⟩ | ⟨-, failure, w', run, ledger, spares⟩
  · have carries : w.store.Carries R w'.store := ⟨ledger.sound, spares⟩
    rw [run]
    exact ⟨.compiled (carries.gains sound ledger), carries⟩
  · have carries : w.store.Carries R w'.store := ⟨ledger.sound, spares⟩
    rw [run]
    exact ⟨.failed (carries.gains sound ledger), carries⟩

end Compiler

/-! ### Runs -/

namespace Workspace

inductive Step : Workspace σ κ → Workspace σ κ → Prop where
  | requested {w : Workspace σ κ} {request : Request σ} (allowed : request.Allowed w.store) :
      Step w { w with store := request.after w.store }
  | compiled {w : Workspace σ κ} {c : Compiler σ} {t : ConditionalTable σ}
      (allocated : c.encoding.Allocated) : Step w (left (c.compile t w))
  | asked {w : Workspace σ κ} {e : Engine} {query : NameSet} {evidence : Evidence}
      {answered : Bool} (pinned : e.Pinned w.store) :
      Step w (left (e.run query evidence answered w))

inductive Reachable (config : StoreConfig σ) : Workspace σ κ → Prop where
  | created {s : Store σ κ} {journal : Array (Event σ)} (new : Store.create config = .ok s) :
      Reachable config ⟨s, journal⟩
  | stepped {w w' : Workspace σ κ} (reachable : Reachable config w) (step : Step w w') :
      Reachable config w'

theorem Step.carries (sound : w.store.Sound R) (step : Step w w') :
    w.store.Carries R w'.store := by
  cases step with
  | requested allowed =>
    exact ⟨after_sound sound allowed, fun f d pinned =>
      after_rootShows sound allowed (sound.pinCount_pos_iff.mp pinned)⟩
  | compiled allocated => exact (Compiler.compile_tidy sound allocated.sound _).2
  | asked pinned => exact (Engine.run_tidy sound pinned _ _ _).2

theorem Reachable.sound (reachable : Reachable config w) : w.store.Sound R := by
  induction reachable with
  | created new => exact create_sound new
  | stepped _ step ih => exact (step.carries ih).sound

inductive During (holds : Store σ κ → Prop) (start : Workspace σ κ) : Workspace σ κ → Prop where
  | start : During holds start start
  | stepped {w w' : Workspace σ κ} (run : During holds start w) (held : holds w.store)
      (step : Step w w') : During holds start w'

theorem During.carries {holds : Store σ κ → Prop} {start : Workspace σ κ}
    (run : During holds start w) (sound : start.store.Sound R) :
    w.store.Sound R ∧ ∀ f d, (∀ s, holds s → s.isPinned f = true) →
      start.store.RootShows f d → w.store.RootShows f d := by
  induction run with
  | start => exact ⟨sound, fun _ _ _ shown => shown⟩
  | stepped _ held step ih =>
    obtain ⟨sound', shows⟩ := ih
    have carries := step.carries sound'
    exact ⟨carries.sound, fun f d pins shown =>
      carries.spares f d (sound'.pinCount_pos_iff.mpr (pins _ held)) (shows f d pins shown)⟩

/-- Questions and compilations leave nothing pinned but what they return, and release nothing that
they did not pin. -/
theorem pins_balance (reachable : Reachable config w) :
    (∀ (e : Engine) (query : NameSet) (evidence : Evidence) (answered : Bool),
      e.Pinned w.store → Engine.Tidy w.store (e.run query evidence answered w)) ∧
    ∀ (c : Compiler σ) (t : ConditionalTable σ),
      c.encoding.Allocated → Compiler.Tidy w.store (c.compile t w) := by
  have sound := reachable.sound (R := .plain config)
  exact ⟨fun e query evidence answered pinned =>
      (Engine.run_tidy sound pinned query evidence answered).1,
    fun c t allocated => (Compiler.compile_tidy sound allocated.sound t).1⟩

theorem pins_balance_listed_twice :
    let pinned := (Request.pin ⟨1⟩).after ((Request.test ⟨1⟩ 0 1).after Store.exact)
    let w : Workspace Rat Rat := ⟨pinned, #[]⟩
    let numbered : Encoding := { next := 2, ownedBits := [⟨"A", 0, ⟨1⟩⟩] }
    let encoding := numbered.record "A" 2 [⟨1⟩]
    let tables : Std.ExtTreeMap String CompiledTable :=
      .insert ∅ "A" ⟨"A", [], 2, 2, 1, .enumeration, ⟨1⟩⟩
    let e : Engine := ⟨⟨["A"], []⟩, encoding, tables, ["A", "A"], .scalar⟩
    Reachable .exact w ∧ e.Pinned w.store ∧ encoding.Allocated ∧
      (∀ query evidence answered, Engine.Tidy w.store (e.run query evidence answered w)) ∧
      ∀ network t, Compiler.Tidy w.store (Compiler.compile ⟨network, encoding⟩ t w) := by
  intro pinned w numbered encoding tables e
  have created : Reachable .exact (⟨Store.exact, #[]⟩ : Workspace Rat Rat) := .created rfl
  have tested : Reachable .exact
      (⟨(Request.test ⟨1⟩ 0 1).after Store.exact, #[]⟩ : Workspace Rat Rat) :=
    created.stepped (.requested ⟨by decide, by decide⟩)
  have reachable : Reachable .exact w := by
    refine tested.stepped (.requested ?_)
    show _ = true
    decide +kernel
  have tablesPinned : e.Pinned w.store := by
    intro name t found
    rw [Std.ExtTreeMap.getElem?_insert] at found
    split at found
    · cases found
      decide +kernel
    · cases found
  have made : ({} : Encoding).allocate "A" 2 = .ok encoding := rfl
  have allocated : encoding.Allocated := .block .empty made
  obtain ⟨asked, compiled⟩ := pins_balance reachable
  exact ⟨reachable, tablesPinned, allocated,
    fun query evidence answered => asked e query evidence answered tablesPinned,
    fun network t => compiled ⟨network, encoding⟩ t allocated⟩

end Workspace

end BayesDiagram
