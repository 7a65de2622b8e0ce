import BayesDiagram.Inference.Query
import BayesDiagram.Proofs.Diagram.Building
import BayesDiagram.Proofs.Diagram.Reclamation

/-! Who holds which pins. A ledger splits the pins of a store into those of others and one for each
mention of a held root; every step of a query spends what it holds and leaves the others' roots
showing their diagrams, even over a flush. -/
namespace BayesDiagram

variable {σ κ : Type} [Scalar σ] [Coefficient σ κ] {config : StoreConfig σ}
  {R : Reading σ κ config} {s s' : Store σ κ} {base : Root → Nat} {held : List Root} {f : Root}
  {d : Diagram κ}

namespace Store

/-- A sound store with the pins of others and one pin for every mention of a held root. -/
structure Ledger (R : Reading σ κ config) (base : Root → Nat) (held : List Root)
    (s : Store σ κ) : Prop where
  sound : s.Sound R
  count : ∀ f, s.pinCount f = base f + held.count f

def Spares (base : Root → Nat) (s s' : Store σ κ) : Prop :=
  ∀ f d, 0 < base f → s.RootShows f d → s'.RootShows f d

omit [Scalar σ] in
theorem Spares.trans {s'' : Store σ κ} (first : s.Spares base s') (second : s'.Spares base s'') :
    s.Spares base s'' :=
  fun f d pinned shown => second f d pinned (first f d pinned shown)

namespace Ledger

theorem perm {held' : List Root} (ledger : s.Ledger R base held) (perm : held.Perm held') :
    s.Ledger R base held' :=
  ⟨ledger.sound, fun f => by rw [ledger.count, perm.count_eq]⟩

theorem lend {lent : List Root} (ledger : s.Ledger R base (held ++ lent)) :
    s.Ledger R (fun f => base f + lent.count f) held :=
  ⟨ledger.sound, fun f => by
    rw [ledger.count, List.count_append]
    omega⟩

theorem reclaim {lent : List Root} (ledger : s.Ledger R (fun f => base f + lent.count f) held) :
    s.Ledger R base (held ++ lent) :=
  ⟨ledger.sound, fun f => by
    rw [ledger.count, List.count_append]
    omega⟩

theorem grows (ledger : s.Ledger R base held) (grows : s.Grows s') (sound : s'.Sound R) :
    s'.Ledger R base held :=
  ⟨sound, fun f => by rw [pinCount, grows.pins, ← ledger.count, pinCount]⟩

theorem pin (ledger : s.Ledger R base held) (shown : s.RootShows f d) :
    ∃ pins, Store.pin f s = .ok () { s with pins } ∧
      ({ s with pins } : Store σ κ).Ledger R base (f :: held) := by
  have live : s.roots.isOccupied f.index = true := by
    rw [UniqueTable.isOccupied, shown.1]
    rfl
  obtain ⟨pins, run, sound, count⟩ := pin_spec ledger.sound live
  refine ⟨pins, run, sound, fun g => ?_⟩
  rw [count, ledger.count, List.count_cons]
  by_cases same : f = g
  · subst same
    simp only [if_true, beq_self_eq_true]
    omega
  · simp only [if_neg (Ne.symm same), beq_eq_false_iff_ne.mpr same, Bool.false_eq_true, if_false,
      Nat.add_zero]

theorem unpin (ledger : s.Ledger R base (f :: held)) :
    ∃ pins, Store.unpin f s = .ok () { s with pins } ∧
      ({ s with pins } : Store σ κ).Ledger R base held := by
  have pinned : 0 < s.pinCount f := by
    rw [ledger.count, List.count_cons_self]
    omega
  obtain ⟨pins, run, sound, count⟩ := unpin_spec ledger.sound pinned
  refine ⟨pins, run, sound, fun g => ?_⟩
  have total := count g
  rw [ledger.count, List.count_cons] at total
  by_cases same : f = g
  · subst same
    simp only [if_true, beq_self_eq_true] at total
    omega
  · simp only [if_neg (Ne.symm same), beq_eq_false_iff_ne.mpr same, Bool.false_eq_true,
      if_false] at total
    omega

theorem flush (ledger : s.Ledger R base held) :
    ∃ flushed s', flushUnderPressure s = .ok flushed s' ∧ s'.Ledger R base held ∧
      s.Spares (fun f => base f + held.count f) s' := by
  obtain ⟨flushed, s', run, sound, retains⟩ := flushUnderPressure_spec ledger.sound
  refine ⟨flushed, s', run, ⟨sound, fun f => ?_⟩, fun f d pinned shown => ?_⟩
  · rw [pinCount, retains.pins, ← ledger.count, pinCount]
  · refine retains.shows f d (ledger.sound.pinCount_pos_iff.mp ?_) shown
    rw [ledger.count]
    exact pinned

end Ledger

end Store

namespace Factor

open Store

theorem replace_spec {old result : Root} (ledger : s.Ledger R base [old])
    (shown : s.RootShows result d) :
    ∃ s', replace old result s = .ok result s' ∧ s'.Ledger R base [result] ∧
      s'.RootShows result d ∧ s.Spares base s' := by
  obtain ⟨pins₁, run₁, ledger₁⟩ := ledger.pin shown
  obtain ⟨pins₂, run₂, ledger₂⟩ := (ledger₁.perm (.swap old result [])).unpin
  obtain ⟨flushed, s', run₃, ledger₃, spares⟩ := ledger₂.flush
  refine ⟨s', ?_, ledger₃, spares result d ?_ shown, fun f d pinned shown => ?_⟩
  · rw [replace, StoreM.bind_of_ok run₁, StoreM.bind_of_ok run₂,
      StoreM.bind_of_ok (StoreM.discard_of_ok run₃)]
    rfl
  · simp only [List.count_cons_self]
    omega
  · exact spares f d (by simp only; omega) shown

end Factor

end BayesDiagram
