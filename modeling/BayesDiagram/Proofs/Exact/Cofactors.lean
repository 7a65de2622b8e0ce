import BayesDiagram.Proofs.Exact.Canonicity

/-! Cofactors over exact numbers. To fix a bit of a diagram is to fix it in the function, whether
the diagram tests the bit or not, and to eliminate a bit is to combine the two functions with the
bit fixed; so a bit that is not tested counts twice in a sum. -/
namespace BayesDiagram.Store

variable {config : StoreConfig Rat} {noTolerance : config.tolerance = 0} {s : Store Rat Rat}
  {f : Root}

def Answers (s : Store Rat Rat) (step : StoreM Rat Rat Root) (function : (Bit → Bool) → Rat) :
    Prop :=
  ∃ f s', step s = .ok f s' ∧ s'.Denotes f function

theorem Computes.answers {step : StoreM Rat Rat Root} {scope : Finset Bit}
    {function : (Bit → Bool) → Rat} (computes : s.Computes noTolerance step scope function) :
    s.Answers step function := by
  obtain ⟨f, d, s', run, -, sound, shown, -, values⟩ := computes
  obtain rfl : (fun a => d.value a) = function := funext values
  exact ⟨f, s', run, shown.denotes sound⟩

/-- In every store on a run, restriction and elimination of any bit answer, and their functions are
the cofactors of the function of the live root and the combination of its two cofactors. -/
theorem denotes_cofactors (noTolerance : config.tolerance = 0) (reachable : Reachable config s)
    (live : s.roots.isOccupied f.index = true) (bit : Bit) :
    ∃ F : (Bit → Bool) → Rat, s.Denotes f F ∧
      (∀ value, s.Answers (restrict f bit value) fun a => F (Function.update a bit value)) ∧
      ∀ op, s.Answers (marginalize f bit op) fun a =>
        op.compute (F (Function.update a bit false)) (F (Function.update a bit true)) := by
  have sound : s.Sound (Reading.exact noTolerance) := reachable.sound
  obtain ⟨d, shown, -⟩ := sound.rootShows live
  exact ⟨_, shown.denotes sound, fun value => (restrict_computes sound shown bit value).answers,
    fun op => (marginalize_computes sound shown bit op).answers⟩

theorem denotes_cofactors_product :
    let s := (Request.apply ⟨1⟩ ⟨2⟩ .product).after exactTests
    Reachable .exact s ∧ s.roots.isOccupied 3 = true ∧
    ∃ F : (Bit → Bool) → Rat, s.Denotes ⟨3⟩ F ∧
      (∀ value, s.Answers (restrict ⟨3⟩ ⟨2⟩ value) fun a => F (Function.update a ⟨2⟩ value)) ∧
      ∀ op, s.Answers (marginalize ⟨3⟩ ⟨2⟩ op) fun a =>
        op.compute (F (Function.update a ⟨2⟩ false)) (F (Function.update a ⟨2⟩ true)) := by
  intro s
  have reachable : Reachable .exact s :=
    .requested reachable_exactTests ⟨by decide +kernel, by decide +kernel⟩
  have live : s.roots.isOccupied 3 = true := by decide +kernel
  exact ⟨reachable, live, denotes_cofactors rfl reachable live ⟨2⟩⟩

end BayesDiagram.Store
