import BayesDiagram.Proofs.Inference.Loading

/-! Sessions with a model. Whatever was asked and released before, every posterior that was not
released holds one pin, and the tables of the model show what they showed when it was loaded. -/
namespace BayesDiagram

variable {σ κ : Type}

def Network.resolve (n : Network σ) (given : List (String × String)) :
    Except (Error σ) Evidence :=
  given.foldlM (fun (evidence : Evidence) (name, label) => do
    return evidence.insert name (← n.valueIndex name label)) ∅

def Outcome.posteriors : Outcome σ → List (Posterior σ)
  | posterior p => [p]
  | cost _ => []

variable [Scalar σ] [Coefficient σ κ]

def Valuation.blank {config : StoreConfig σ} (R : Reading σ κ config) : Valuation R Unit where
  of _ := ()
  one := ()
  times _ _ := ()
  fix _ _ _ := ()
  sumOut _ _ := ()
  of_stored _ := rfl
  of_one := rfl
  of_product _ := rfl
  of_fixed _ _ := rfl
  of_summed _ _ _ _ _ := rfl

namespace Model

open Store InferenceM

variable {m : Model σ} {w w' start : Workspace σ κ} {held : List (Posterior σ)}

theorem query_eq (m : Model σ) (names : List String) (given : List (String × String))
    (answer : Bool) :
    (m.query names given answer : InferenceM σ κ (Outcome σ)) =
      checked (m.network.resolve given) >>= fun evidence =>
        m.run (.ofList names) evidence answer := by
  rw [query, Network.resolve]
  congr 1
  generalize (∅ : Evidence) = evidence
  induction given generalizing evidence with
  | nil => rfl
  | cons first given ih =>
    rw [List.foldlM_cons, List.foldlM_cons]
    obtain ⟨name, label⟩ := first
    dsimp only
    cases m.network.valueIndex name label with
    | error err => rfl
    | ok index => exact ih (evidence.insert name index)

inductive Asks (m : Model σ) : InferenceM σ κ (Outcome σ) → Prop where
  | labels (names : List String) (given : List (String × String)) (answer : Bool) :
      Asks m (m.query names given answer)
  | values (query : NameSet) (evidence : Evidence) (answer : Bool) :
      Asks m (m.run query evidence answer)

/-- What a model may have been through since a workspace, with the posteriors not yet released. -/
inductive Session (m : Model σ) (start : Workspace σ κ) :
    List (Posterior σ) → Workspace σ κ → Prop where
  | start : Session m start [] start
  | answered {held : List (Posterior σ)} {w w' : Workspace σ κ} {outcome : Outcome σ}
      {ask : InferenceM σ κ (Outcome σ)} (session : Session m start held w) (asks : m.Asks ask)
      (run : ask w = .ok outcome w') : Session m start (outcome.posteriors ++ held) w'
  | refused {held : List (Posterior σ)} {w w' : Workspace σ κ} {failure : Failure σ}
      {ask : InferenceM σ κ (Outcome σ)} (session : Session m start held w) (asks : m.Asks ask)
      (run : ask w = .error failure w') : Session m start held w'
  | released {before after : List (Posterior σ)} {p : Posterior σ} {w w' : Workspace σ κ}
      (session : Session m start (before ++ p :: after) w)
      (run : onStore p.release w = .ok () w') : Session m start (before ++ after) w'

variable {config : StoreConfig σ} {R : Reading σ κ config} {base : Root → Nat}
  {diagramOf : String → Diagram κ}

structure Keeps (R : Reading σ κ config) (m : Model σ) (diagramOf : String → Diagram κ)
    (base : Root → Nat) (held : List (Posterior σ)) (w : Workspace σ κ) : Prop where
  ledger : w.store.Ledger R base (held.map Posterior.root)
  holds : m.Holds diagramOf base w.store

inductive Reply (R : Reading σ κ config) (m : Model σ) (diagramOf : String → Diagram κ)
    (base : Root → Nat) (held : List (Posterior σ)) :
    EStateM.Result (Failure σ) (Workspace σ κ) (Outcome σ) → Prop where
  | ok {outcome : Outcome σ} {w' : Workspace σ κ}
      (keeps : m.Keeps R diagramOf base (outcome.posteriors ++ held) w') :
      Reply R m diagramOf base held (.ok outcome w')
  | error {failure : Failure σ} {w' : Workspace σ κ} (keeps : m.Keeps R diagramOf base held w') :
      Reply R m diagramOf base held (.error failure w')

theorem run_reply (sound : m.Sound) (keeps : m.Keeps R diagramOf base held w) (query : NameSet)
    (evidence : Evidence) (answer : Bool) :
    m.Reply R diagramOf base held (m.run query evidence answer w) := by
  have outcomes := Engine.run_outcomes m.toEngine query evidence answer w
  have keeps : m.Keeps R diagramOf base held
      { w with journal := w.journal.push (.asked query.toList evidence.toList answer) } :=
    ⟨keeps.ledger, keeps.holds⟩
  generalize m.run query evidence answer w = result at outcomes ⊢
  generalize ({ w with journal := _ } : Workspace σ κ) = w at outcomes keeps
  cases outcomes with
  | refused => exact .error keeps
  | estimated size asked => exact .ok ⟨keeps.ledger, keeps.holds⟩
  | answered asked checks =>
    obtain ⟨p, w', left, d, sum, stored, run, ledger, shown, spares, -⟩ :=
      Engine.answer_spec (Valuation.blank R) sound keeps.holds keeps.ledger checks
    rw [run]
    refine .ok ⟨ledger, fun name known t found => ?_⟩
    obtain ⟨pinned, shown, bits⟩ := keeps.holds name known t found
    exact ⟨pinned, spares _ _ (Nat.add_pos_left pinned _) shown, bits⟩

theorem reply_of_asks (sound : m.Sound) (keeps : m.Keeps R diagramOf base held w)
    {ask : InferenceM σ κ (Outcome σ)} (asks : m.Asks ask) :
    m.Reply R diagramOf base held (ask w) := by
  cases asks with
  | values query evidence answer => exact run_reply sound keeps query evidence answer
  | labels names given answer =>
    rw [query_eq]
    cases m.network.resolve given with
    | error err => exact .error keeps
    | ok evidence => exact run_reply sound keeps (.ofList names) evidence answer

theorem Keeps.release {before after : List (Posterior σ)} {p : Posterior σ}
    (keeps : m.Keeps R diagramOf base (before ++ p :: after) w)
    (run : onStore p.release w = .ok () w') :
    m.Keeps R diagramOf base (before ++ after) w' := by
  obtain ⟨s, released, rfl⟩ := onStore_eq_ok run
  obtain ⟨pins, unpinned, ledger⟩ :=
    (keeps.ledger.perm (List.perm_middle.map Posterior.root)).unpin
  rw [Posterior.release, unpinned] at released
  cases released
  exact ⟨ledger, keeps.holds⟩

theorem Session.keeps (sound : m.Sound) (loaded : start.store.Ledger R base [])
    (holds : m.Holds diagramOf base start.store) (session : m.Session start held w) :
    m.Keeps R diagramOf base held w := by
  induction session with
  | start => exact ⟨loaded, holds⟩
  | answered _ asks run ih =>
    have reply := reply_of_asks sound ih asks
    rw [run] at reply
    cases reply with
    | ok keeps => exact keeps
  | refused _ asks run ih =>
    have reply := reply_of_asks sound ih asks
    rw [run] at reply
    cases reply with
    | error keeps => exact keeps
  | released _ run ih => exact ih.release run

end Model

end BayesDiagram
