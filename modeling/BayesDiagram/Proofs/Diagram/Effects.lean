import BayesDiagram.Proofs.Diagram.Building
import BayesDiagram.Proofs.Diagram.Reclamation

/-! What one request can do to a store. It builds on what is there, is refused, changes the pins or
flushes the store, and leaves it sound; what holds on every run follows from these effects. -/
namespace BayesDiagram

inductive Request (σ : Type) where
  | constant (value : σ)
  | test (bit : Bit) (low high : σ)
  | branch (bit : Bit) (low high : Root)
  | apply (f g : Root) (op : Operator)
  | multiply (f : Root) (scalar : σ)
  | restrict (f : Root) (bit : Bit) (value : Bool)
  | marginalize (f : Root) (bit : Bit) (op : Operator)
  | ofOrderedTree (tree : DecisionTree σ)
  | ofUnorderedTree (tree : DecisionTree σ)
  | pin (f : Root)
  | unpin (f : Root)
  | collectGarbage
  | flushUnderPressure

namespace Request

variable {σ κ : Type}

/-- A caller asks about live roots, and for tests of proper bits. -/
def Allowed (s : Store σ κ) : Request σ → Prop
  | constant _ | collectGarbage | flushUnderPressure => True
  | test bit _ _ => bit.Proper
  | branch bit low high =>
    bit.Proper ∧ s.roots.isOccupied low.index = true ∧ s.roots.isOccupied high.index = true
  | apply f g _ => s.roots.isOccupied f.index = true ∧ s.roots.isOccupied g.index = true
  | multiply f _ | restrict f _ _ | marginalize f _ _ | pin f | unpin f =>
    s.roots.isOccupied f.index = true
  | ofOrderedTree tree | ofUnorderedTree tree => ∀ bit ∈ tree.bits, bit.Proper

def pins (f : Root) : Request σ → Nat
  | pin g => if f = g then 1 else 0
  | _ => 0

def unpins (f : Root) : Request σ → Nat
  | unpin g => if f = g then 1 else 0
  | _ => 0

variable [Scalar σ] [Coefficient σ κ]

def perform : Request σ → StoreM σ κ (Option Root)
  | constant value => some <$> Store.constant value
  | test bit low high => some <$> Store.test bit low high
  | branch bit low high => some <$> Store.branch bit low high
  | apply f g op => some <$> Store.apply f g op
  | multiply f scalar => some <$> Store.multiply f scalar
  | restrict f bit value => some <$> Store.restrict f bit value
  | marginalize f bit op => some <$> Store.marginalize f bit op
  | ofOrderedTree tree => some <$> Store.ofOrderedTree tree
  | ofUnorderedTree tree => some <$> Store.ofUnorderedTree tree
  | pin f => (fun _ => none) <$> Store.pin f
  | unpin f => (fun _ => none) <$> Store.unpin f
  | collectGarbage => (fun _ => none) <$> Store.collectGarbage
  | flushUnderPressure => (fun _ => none) <$> Store.flushUnderPressure

def after (request : Request σ) (s : Store σ κ) : Store σ κ :=
  match request.perform s with
  | .ok _ s' => s'
  | .error _ s' => s'

end Request

namespace Store

variable {σ κ : Type} [Scalar σ] [Coefficient σ κ] {config : StoreConfig σ} {R : Reading σ κ config}
  {s s' : Store σ κ}

inductive Effect (R : Reading σ κ config) (s : Store σ κ) :
    Request σ → EStateM.Result Fault (Store σ κ) (Option Root) → Prop where
  | built {request : Request σ} {s' : Store σ κ} (f : Root)
      (quiet : ∀ g, request.pins g = 0 ∧ request.unpins g = 0) (grows : s.Grows s')
      (sound : s'.Sound R) : Effect R s request (.ok (some f) s')
  | refused {request : Request σ} {s' : Store σ κ} (fault : Fault) (grows : s.Grows s')
      (sound : s'.Sound R) : Effect R s request (.error fault s')
  | pinned (f : Root) {pins : Std.TreeMap Nat Nat}
      (count : ∀ g, ({ s with pins } : Store σ κ).pinCount g =
        s.pinCount g + if g = f then 1 else 0)
      (sound : Sound R { s with pins }) : Effect R s (.pin f) (.ok none { s with pins })
  | unpinned (f : Root) {pins : Std.TreeMap Nat Nat}
      (count : ∀ g, ({ s with pins } : Store σ κ).pinCount g + (if g = f then 1 else 0) =
        s.pinCount g)
      (sound : Sound R { s with pins }) : Effect R s (.unpin f) (.ok none { s with pins })
  | flushed {request : Request σ} {s' : Store σ κ}
      (quiet : ∀ g, request.pins g = 0 ∧ request.unpins g = 0)
      (run : collectGarbage s = .ok () s') (sound : s'.Sound R) :
      Effect R s request (.ok none s')
  | spared (sound : s.Sound R) : Effect R s .flushUnderPressure (.ok none s)

theorem YieldsRoot.effect {step : StoreM σ κ Root} {scope : Finset Bit}
    {meaning : Diagram κ → Prop} (yields : s.YieldsRoot R step scope meaning)
    {request : Request σ} (quiet : ∀ g, request.pins g = 0 ∧ request.unpins g = 0) :
    s.Effect R request ((some <$> step : StoreM σ κ (Option Root)) s) := by
  obtain ⟨f, d, stored, s', run, grows, sound, -⟩ := yields
  simp only [Functor.map, EStateM.map, run]
  exact .built f quiet grows sound

theorem effect_of_error {α : Type} {step : StoreM σ κ α} {fault : Fault}
    (refused : step s = .error fault s') (grows : s.Grows s') (sound : s'.Sound R)
    (request : Request σ) (answer : α → Option Root) :
    s.Effect R request ((answer <$> step : StoreM σ κ _) s) := by
  simp only [Functor.map, EStateM.map, refused]
  exact .refused fault grows sound

theorem perform_effect (sound : s.Sound R) {request : Request σ} (allowed : request.Allowed s) :
    s.Effect R request (request.perform s) := by
  have quiet (g : Root) : (0 : Nat) = 0 ∧ (0 : Nat) = 0 := ⟨rfl, rfl⟩
  cases request with
  | constant value => exact (constant_spec sound value).effect quiet
  | test bit low high => exact (test_spec sound allowed low high).effect quiet
  | branch bit low high =>
    obtain ⟨proper, lowLive, highLive⟩ := allowed
    obtain ⟨lower, lowShown, -⟩ := sound.rootShows lowLive
    obtain ⟨upper, highShown, -⟩ := sound.rootShows highLive
    rcases branch_spec sound proper lowShown highShown with ⟨-, refused⟩ | yields
    · exact effect_of_error refused (.refl s) sound _ _
    · exact yields.effect quiet
  | apply f g op =>
    obtain ⟨left, leftShown, -⟩ := sound.rootShows allowed.1
    obtain ⟨right, rightShown, -⟩ := sound.rootShows allowed.2
    exact (apply_spec sound leftShown rightShown op).effect quiet
  | multiply f scalar =>
    obtain ⟨d, shown, -⟩ := sound.rootShows allowed
    exact (multiply_spec sound shown scalar).effect quiet
  | restrict f bit value =>
    obtain ⟨d, shown, -⟩ := sound.rootShows allowed
    exact (restrict_spec sound shown bit value).effect quiet
  | marginalize f bit op =>
    obtain ⟨d, shown, -⟩ := sound.rootShows allowed
    exact (marginalize_spec sound shown bit op).effect quiet
  | ofOrderedTree tree =>
    rcases ofOrderedTree_spec sound allowed with yields | ⟨-, fault, s', refused, grows, sound'⟩
    · exact yields.effect quiet
    · exact effect_of_error refused grows sound' _ _
  | ofUnorderedTree tree => exact (ofUnorderedTree_spec sound allowed).effect quiet
  | pin f =>
    obtain ⟨pins, run, sound', count⟩ := pin_spec sound allowed
    simp only [Request.perform, Functor.map, EStateM.map, run]
    exact .pinned f count sound'
  | unpin f =>
    cases pinned : s.isPinned f with
    | false => exact effect_of_error (unpin_of_not_pinned pinned) (.refl s) sound _ _
    | true =>
      obtain ⟨pins, run, sound', count⟩ :=
        unpin_spec sound (sound.pinCount_pos_iff.mpr pinned)
      simp only [Request.perform, Functor.map, EStateM.map, run]
      exact .unpinned f count sound'
  | collectGarbage =>
    obtain ⟨s', run, sound', -⟩ := collectGarbage_spec sound
    simp only [Request.perform, Functor.map, EStateM.map, run]
    exact .flushed quiet run sound'
  | flushUnderPressure =>
    obtain ⟨s', run, sound', -⟩ := collectGarbage_spec sound
    simp only [Request.perform, Functor.map, EStateM.map]
    rcases flushUnderPressure_run s with idle | flushes
    · rw [idle]
      exact .spared sound
    · rw [flushes]
      simp only [Functor.map, EStateM.map, run]
      exact .flushed quiet run sound'

/-- A request leaves the store sound, and has built on it, set its pins or flushed it. -/
theorem after_cases (sound : s.Sound R) {request : Request σ} (allowed : request.Allowed s) :
    (request.after s).Sound R ∧
      (s.Grows (request.after s) ∨ (∃ pins, request.after s = { s with pins }) ∨
        collectGarbage s = .ok () (request.after s)) := by
  have effect := perform_effect sound allowed
  rw [Request.after]
  generalize request.perform s = result at effect
  cases effect with
  | built f quiet grows sound' => exact ⟨sound', .inl grows⟩
  | refused fault grows sound' => exact ⟨sound', .inl grows⟩
  | pinned f count sound' => exact ⟨sound', .inr (.inl ⟨_, rfl⟩)⟩
  | unpinned f count sound' => exact ⟨sound', .inr (.inl ⟨_, rfl⟩)⟩
  | flushed quiet run sound' => exact ⟨sound', .inr (.inr run)⟩
  | spared => exact ⟨sound, .inl (.refl s)⟩

theorem after_sound (sound : s.Sound R) {request : Request σ} (allowed : request.Allowed s) :
    (request.after s).Sound R :=
  (after_cases sound allowed).1

end Store

end BayesDiagram
