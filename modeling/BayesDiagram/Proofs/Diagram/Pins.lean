import BayesDiagram.Proofs.Diagram.Counting
import BayesDiagram.Proofs.Diagram.Runs

/-! Pins over whole runs. A root is pinned while more pins of it were made than released; as long as
it is, its edge, the nodes that it reaches and what is read off them stay as they are, and a flush
keeps exactly what the pinned roots reach. -/
namespace BayesDiagram.Store

variable {σ κ : Type} [Scalar σ] [Coefficient σ κ] {config : StoreConfig σ} {s s' : Store σ κ}
  {f : Root} {d : Diagram κ}

def Reaches (s : Store σ κ) (f : Root) (id : NodeId) : Prop :=
  ∃ e, s.edge f = .ok e ∧ Reached (descendants.children s) [e.node] id

omit [Scalar σ] in
theorem RootShows.reaches_iff (shown : s.RootShows f d) {id : NodeId} :
    s.Reaches f id ↔ Reached (descendants.children s) [d.edge.node] id := by
  constructor
  · rintro ⟨e, found, path⟩
    rw [shown.edge_eq, Except.ok.injEq] at found
    exact found ▸ path
  · exact fun path => ⟨d.edge, shown.edge_eq, path⟩

/-- A root stands for one diagram in two stores: its edge, the nodes that it reaches and what is
read off them are the same. -/
structure Unchanged (f : Root) (s s' : Store σ κ) : Prop where
  edge : ∃ e, s.edge f = .ok e ∧ s'.edge f = .ok e
  reaches : ∀ id, s'.Reaches f id ↔ s.Reaches f id
  nodes : ∀ id, s.Reaches f id → id ≠ .terminal →
    ∃ node, s.nodes.cell? id.index = some node ∧ s'.nodes.cell? id.index = some node
  evaluate : ∀ assignment, ∃ value,
    s.evaluate f assignment = .ok value ∧ s'.evaluate f assignment = .ok value
  bitsUsed : ∃ bits, s.bitsUsed f = .ok bits ∧ s'.bitsUsed f = .ok bits
  nodeCount : ∃ count, s.nodeCount f = .ok count ∧ s'.nodeCount f = .ok count

omit [Scalar σ] in
theorem RootShows.unchanged (ordered : d.Ordered) (shown : s.RootShows f d)
    (shown' : s'.RootShows f d) : Unchanged f s s' where
  edge := ⟨d.edge, shown.edge_eq, shown'.edge_eq⟩
  reaches id := by
    rw [shown.reaches_iff, shown'.reaches_iff]
    exact ⟨reached_of_shows shown'.2 shown.2, reached_of_shows shown.2 shown'.2⟩
  nodes id path inner := by
    obtain ⟨below, rfl, -, stands, everywhere⟩ :=
      shows_of_reached shown.2 (shown.reaches_iff.mp path)
    cases below with
    | constant value => exact absurd rfl inner
    | test place offset scale bit low high =>
      exact ⟨_, stands.1, (everywhere s' shown'.2).1⟩
  evaluate assignment := ⟨_, shown.evaluate_eq ordered _, shown'.evaluate_eq ordered _⟩
  bitsUsed := shown.bitsUsed_eq shown'
  nodeCount := shown.nodeCount_eq shown'

/-! ### Flushes -/

/-- What a flush leaves: the pinned roots and the nodes that they reach, no results, all pins. -/
structure Flushed (s s' : Store σ κ) : Prop where
  roots : ∀ g : Root, s'.roots.isOccupied g.index = true ↔ s.isPinned g = true
  nodes : ∀ id : NodeId, s'.nodes.isOccupied id.index = true ↔
    id ≠ .terminal ∧ ∃ g, s.isPinned g = true ∧ s.Reaches g id
  applied : s'.applied.entries = ∅
  restricted : s'.restricted.entries = ∅
  pins : s'.pins = s.pins

theorem collectGarbage_flushes {R : Reading σ κ config} (sound : s.Sound R) :
    ∃ s', collectGarbage s = .ok () s' ∧ s.Flushed s' := by
  obtain ⟨tops, alive, top, mem, run⟩ := collectGarbage_run sound
  have kept (id : NodeId) : id ∈ alive ↔ ∃ g, s.isPinned g = true ∧ s.Reaches g id := by
    rw [mem, reached_iff_exists_start]
    constructor
    · rintro ⟨start, isTop, path⟩
      obtain ⟨g, d, pinned, shown, rfl⟩ := (top start).mp isTop
      exact ⟨g, pinned, shown.reaches_iff.mpr path⟩
    · rintro ⟨g, pinned, reaches⟩
      obtain ⟨d, shown, -⟩ := sound.rootShows (sound.occupied_of_pinned pinned)
      exact ⟨d.edge.node, (top _).mpr ⟨g, d, pinned, shown, rfl⟩, shown.reaches_iff.mp reaches⟩
  refine ⟨_, run, fun g => ?_, fun id => ?_, rfl, rfl, rfl⟩
  · rw [UniqueTable.isOccupied, cell?_roots_drop]
    constructor
    · intro occupied
      split at occupied
      · next pinned => exact pinned
      · cases occupied
    · intro pinned
      rw [if_pos (show s.clearComputed.isPinned ⟨g.index⟩ = true from pinned)]
      exact sound.occupied_of_pinned pinned
  · rw [UniqueTable.isOccupied, cell?_nodes_drop, ← kept]
    constructor
    · intro occupied
      split at occupied
      · next isAlive =>
        refine ⟨?_, isAlive⟩
        rintro rfl
        cases occupied
      · cases occupied
    · rintro ⟨inner, isAlive⟩
      rw [if_pos (show (⟨id.index⟩ : NodeId) ∈ alive from isAlive)]
      obtain ⟨g, pinned, reaches⟩ := (kept id).mp isAlive
      obtain ⟨d, shown, keeps⟩ := sound.rootShows (sound.occupied_of_pinned pinned)
      obtain ⟨node, stored, -⟩ := (shown.unchanged keeps.ordered shown).nodes id reaches inner
      exact Option.isSome_iff_exists.mpr ⟨node, stored⟩

/-! ### Runs -/

def answer? (s : Store σ κ) (request : Request σ) : Option (Option Root) :=
  match request.perform s with
  | .ok answer _ => some answer
  | .error _ _ => none

inductive Run (config : StoreConfig σ) : List (Request σ) → Store σ κ → Prop where
  | created {s : Store σ κ} (new : create config = .ok s) : Run config [] s
  | answered {past : List (Request σ)} {s : Store σ κ} {request : Request σ}
      (run : Run config past s) (allowed : request.Allowed s)
      (answers : (s.answer? request).isSome = true) : Run config (request :: past) (request.after s)
  | refused {past : List (Request σ)} {s : Store σ κ} {request : Request σ}
      (run : Run config past s) (allowed : request.Allowed s)
      (refuses : s.answer? request = none) : Run config past (request.after s)

/-- The stores on a run from `s` on which a root is pinned before each request. -/
inductive PinnedRun (f : Root) (s : Store σ κ) : Store σ κ → Prop where
  | start : PinnedRun f s s
  | requested {s' : Store σ κ} {request : Request σ} (run : PinnedRun f s s')
      (pinned : s'.isPinned f = true) (allowed : request.Allowed s') :
      PinnedRun f s (request.after s')

def pinsMade (f : Root) (past : List (Request σ)) : Nat :=
  past.foldr (fun request count => request.pins f + count) 0

def pinsReleased (f : Root) (past : List (Request σ)) : Nat :=
  past.foldr (fun request count => request.unpins f + count) 0

variable {past : List (Request σ)}

theorem Run.reachable (run : Run config past s) : Reachable config s := by
  induction run with
  | created new => exact .created new
  | answered _ allowed _ ih => exact .requested ih allowed
  | refused _ allowed _ ih => exact .requested ih allowed

theorem pins_of_collectGarbage {R : Reading σ κ config} (sound : s.Sound R)
    (run : collectGarbage s = .ok () s') : s'.pins = s.pins := by
  obtain ⟨s'', run', flushed⟩ := collectGarbage_flushes sound
  rw [run] at run'
  cases run'
  exact flushed.pins

theorem pinCount_of_answered {R : Reading σ κ config} (sound : s.Sound R) {request : Request σ}
    (allowed : request.Allowed s) (answers : (s.answer? request).isSome = true) (f : Root) :
    (request.after s).pinCount f + request.unpins f = s.pinCount f + request.pins f := by
  have effect := perform_effect sound allowed
  rw [answer?] at answers
  rw [Request.after]
  cases performed : request.perform s with
  | error fault s' =>
    rw [performed] at answers
    cases answers
  | ok answer s' =>
    rw [performed] at effect
    cases effect with
    | built g quiet grows sound' =>
      show s'.pinCount f + _ = _
      rw [(quiet f).1, (quiet f).2, pinCount, pinCount, grows.pins]
    | pinned g count => exact count f
    | unpinned g count => exact count f
    | flushed quiet run =>
      show s'.pinCount f + _ = _
      rw [(quiet f).1, (quiet f).2, pinCount, pinCount, pins_of_collectGarbage sound run]
    | spared => rfl

theorem pinCount_of_refused {R : Reading σ κ config} (sound : s.Sound R) {request : Request σ}
    (allowed : request.Allowed s) (refuses : s.answer? request = none) (f : Root) :
    (request.after s).pinCount f = s.pinCount f := by
  have effect := perform_effect sound allowed
  rw [answer?] at refuses
  rw [Request.after]
  cases performed : request.perform s with
  | ok answer s' =>
    rw [performed] at refuses
    cases refuses
  | error fault s' =>
    rw [performed] at effect
    cases effect with
    | refused _ grows => exact congrArg (fun pins => pins.getD f.index 0) grows.pins

theorem Run.pinCount_eq (run : Run config past s) (f : Root) :
    s.pinCount f + pinsReleased f past = pinsMade f past := by
  induction run with
  | created new =>
    obtain ⟨nodes, roots, -, -, rfl⟩ := create_cases new
    rfl
  | answered run allowed answers ih =>
    have step :=
      pinCount_of_answered (run.reachable.sound (R := .plain config)) allowed answers f
    simp only [pinsReleased, pinsMade, List.foldr_cons] at ih ⊢
    omega
  | refused run allowed refuses ih =>
    rw [pinCount_of_refused (run.reachable.sound (R := .plain config)) allowed refuses]
    exact ih

theorem after_rootShows {R : Reading σ κ config} (sound : s.Sound R) {request : Request σ}
    (allowed : request.Allowed s) (pinned : s.isPinned f = true) (shown : s.RootShows f d) :
    (request.after s).RootShows f d := by
  rcases (after_cases sound allowed).2 with grows | ⟨pins, same⟩ | run
  · exact grows.rootShows shown
  · rw [same]
    exact shown
  · obtain ⟨s', run', -, retains⟩ := collectGarbage_spec sound
    rw [run] at run'
    injection run' with _ same
    rw [same]
    exact retains.shows f d pinned shown

theorem PinnedRun.rootShows {R : Reading σ κ config} (sound : s.Sound R) (shown : s.RootShows f d)
    (run : PinnedRun f s s') : s'.Sound R ∧ s'.RootShows f d := by
  induction run with
  | start => exact ⟨sound, shown⟩
  | requested _ pinned allowed ih =>
    exact ⟨after_sound ih.1 allowed, after_rootShows ih.1 allowed pinned ih.2⟩

/-- On every run a root is pinned exactly while more pins of it were made than released; from then
on until its last pin is released it stands for one diagram; and a flush, whether asked for or
forced by pressure, keeps exactly what is pinned. -/
theorem pins_protect (run : Run config past s) (f : Root) :
    (s.isPinned f = true ↔ pinsReleased f past < pinsMade f past) ∧
    (s.isPinned f = true → ∀ s', PinnedRun f s s' → Unchanged f s s') ∧
    ∃ s', collectGarbage s = .ok () s' ∧ s.Flushed s' ∧
      (flushUnderPressure s = .ok false s ∨ flushUnderPressure s = .ok true s') := by
  have sound := run.reachable.sound (R := .plain config)
  refine ⟨?_, fun pinned s' further => ?_, ?_⟩
  · have count := run.pinCount_eq f
    rw [← sound.pinCount_pos_iff]
    omega
  · obtain ⟨d, shown, keeps⟩ := sound.rootShows (sound.occupied_of_pinned pinned)
    exact shown.unchanged keeps.ordered (further.rootShows sound shown).2
  · obtain ⟨s', collected, flushed⟩ := collectGarbage_flushes sound
    refine ⟨s', collected, flushed, (flushUnderPressure_run s).imp_right fun forced => ?_⟩
    rw [forced]
    simp only [Functor.map, EStateM.map, collected]

theorem pins_protect_test :
    let past : List (Request Rat) := [.pin ⟨1⟩, .test ⟨1⟩ 0 1]
    let s := (Request.pin ⟨1⟩).after ((Request.test ⟨1⟩ 0 1).after exact)
    Run .exact past s ∧ s.isPinned ⟨1⟩ = true ∧ pinsReleased ⟨1⟩ past < pinsMade ⟨1⟩ past ∧
    (∀ s', PinnedRun ⟨1⟩ s s' → Unchanged ⟨1⟩ s s') ∧
    ∃ s', collectGarbage s = .ok () s' ∧ s.Flushed s' ∧
      (flushUnderPressure s = .ok false s ∨ flushUnderPressure s = .ok true s') := by
  intro past s
  have run : Run .exact past s := by
    refine .answered (.answered (.created rfl) ⟨by decide, by decide⟩ (by decide +kernel)) ?_
      (by decide +kernel)
    show _ = true
    decide +kernel
  have pinned : s.isPinned ⟨1⟩ = true := by decide +kernel
  obtain ⟨counted, unchanged, flushed⟩ := pins_protect run ⟨1⟩
  exact ⟨run, pinned, counted.mp pinned, unchanged pinned, flushed⟩

end BayesDiagram.Store
