import Mathlib.Algebra.Order.Field.Rat
import BayesDiagram.Proofs.Diagram.Runs
import BayesDiagram.Proofs.Exact.Pointwise

/-! Canonicity. Over exact numbers a normal diagram reaches the bounds that its edge shows, so its
edge is determined by its function: two live diagrams of a store are one root when they have one
function, and share their node when one function is a positive affine image of the other. -/
namespace BayesDiagram

namespace Diagram

variable {d d' : Diagram Rat}

theorem value_update_above (ordered : d.Ordered) {bit : Bit} (above : bit.level < d.level)
    (a : Bit → Bool) (b : Bool) : d.value (Function.update a bit b) = d.value a := by
  refine value_congr fun other mem => Function.update_of_ne ?_ _ _
  rintro rfl
  exact ordered.notMem_bits above mem

section Test

variable {place : Nat} {offset scale : Rat} {bit : Bit} {low high : Diagram Rat}

theorem value_update_top (ordered : (test place offset scale bit low high).Ordered)
    (a : Bit → Bool) (b : Bool) :
    (test place offset scale bit low high).value (Function.update a bit b) =
      offset + scale * (if b then high else low).value a := by
  obtain ⟨-, aboveLow, aboveHigh, lowOrdered, highOrdered⟩ := ordered
  rw [value_test, Function.update_self]
  cases b
  · rw [if_neg Bool.false_ne_true, if_neg Bool.false_ne_true,
      value_update_above lowOrdered aboveLow]
  · rw [if_pos rfl, if_pos rfl, value_update_above highOrdered aboveHigh]

end Test

theorem span_attained (normal : d.Normal) (ordered : d.Ordered) :
    (∃ a, d.value a = d.edge.least) ∧ ∃ a, d.value a = d.edge.greatest := by
  induction d with
  | constant v =>
    exact ⟨⟨fun _ => false, value_constant v⟩, ⟨fun _ => false, value_constant v⟩⟩
  | test place offset scale bit low high ihLow ihHigh =>
    have branchOrdered := ordered.2.2.2
    obtain ⟨-, lowNormal, highNormal, least, greatest, -⟩ := normal
    have lowSpan := ihLow lowNormal branchOrdered.1
    have highSpan := ihHigh highNormal branchOrdered.2
    -- one of the branches reaches zero and one of them reaches one
    have reaches {x : Rat} {a : Bit → Bool} (b : Bool)
        (here : (if b then high else low).value a = x) :
        ∃ a, (test place offset scale bit low high).value a = offset + scale * x :=
      ⟨Function.update a bit b, by rw [value_update_top ordered, here]⟩
    constructor
    · suffices ∃ a, (test place offset scale bit low high).value a = offset + scale * 0 by
        rwa [mul_zero, add_zero] at this
      rcases min_choice low.edge.least high.edge.least with attained | attained
      · obtain ⟨a, here⟩ := lowSpan.1
        exact reaches false (here.trans (attained.symm.trans least))
      · obtain ⟨a, here⟩ := highSpan.1
        exact reaches true (here.trans (attained.symm.trans least))
    · suffices ∃ a, (test place offset scale bit low high).value a = offset + scale * 1 by
        rwa [mul_one] at this
      rcases max_choice low.edge.greatest high.edge.greatest with attained | attained
      · obtain ⟨a, here⟩ := lowSpan.2
        exact reaches false (here.trans (attained.symm.trans greatest))
      · obtain ⟨a, here⟩ := highSpan.2
        exact reaches true (here.trans (attained.symm.trans greatest))

theorem span_eq_of_value_eq (normal : d.Normal) (ordered : d.Ordered) (normal' : d'.Normal)
    (ordered' : d'.Ordered) (equal : ∀ a, d.value a = d'.value a) :
    d.edge.least = d'.edge.least ∧ d.edge.greatest = d'.edge.greatest := by
  obtain ⟨⟨a, least⟩, ⟨b, greatest⟩⟩ := span_attained normal ordered
  obtain ⟨⟨a', least'⟩, ⟨b', greatest'⟩⟩ := span_attained normal' ordered'
  constructor
  · apply le_antisymm
    · rw [← least', ← equal]
      exact (value_mem_span normal a').1
    · rw [← least, equal]
      exact (value_mem_span normal' a).1
  · apply le_antisymm
    · rw [← greatest, equal]
      exact (value_mem_span normal' b).2
    · rw [← greatest', ← equal]
      exact (value_mem_span normal b').2

end Diagram

namespace Reading

variable {config : StoreConfig Rat} {noTolerance : config.tolerance = 0}
  {t : UniqueTable Rat (Node Rat)} {d d' : Diagram Rat}

/-- A bit that does not matter is not tested at the top of a normal diagram. -/
theorem Keeps.false_of_independent {place : Nat} {offset scale : Rat} {bit : Bit}
    {low high : Diagram Rat}
    (here : (exact noTolerance).Keeps t (.test place offset scale bit low high))
    (independent : ∀ a b, (Diagram.test place offset scale bit low high).value
      (Function.update a bit b) = (Diagram.test place offset scale bit low high).value a)
    (unique : (∀ a, low.value a = high.value a) → low.edge = high.edge) : False := by
  obtain ⟨positive, -, -, -, -, differ⟩ : (Diagram.test place offset scale bit low high).Normal :=
    here.holds
  refine differ (unique fun a => ?_)
  have same := (independent a false).trans (independent a true).symm
  rw [Diagram.value_update_top here.ordered, Diagram.value_update_top here.ordered] at same
  exact mul_left_cancel₀ positive.ne' (add_left_cancel same)

theorem Keeps.edge_eq {d d' : Diagram Rat} (distinct : t.Distinct)
    (here : (exact noTolerance).Keeps t d) (there : (exact noTolerance).Keeps t d')
    (equal : ∀ a, d.value a = d'.value a) : d.edge = d'.edge := by
  have normal : d.Normal := here.holds
  have normal' : d'.Normal := there.holds
  obtain ⟨least, greatest⟩ :=
    Diagram.span_eq_of_value_eq normal here.ordered normal' there.ordered equal
  -- on both diagrams together, since either one may start above the other
  match d, d' with
  | .constant v, .constant v' => exact congrArg Edge.constant least
  | .constant v, .test place offset scale bit low high =>
    change v = offset at least
    change v = offset + scale at greatest
    have := normal'.scale_pos
    linarith
  | .test place offset scale bit low high, .constant v =>
    change offset = v at least
    change offset + scale = v at greatest
    have := normal.scale_pos
    linarith
  | .test place offset scale bit low high, .test place' offset' scale' bit' low' high' =>
    change offset = offset' at least
    change offset + scale = offset' + scale' at greatest
    have sameScale : scale = scale' := by linarith
    rcases Nat.lt_trichotomy bit.level bit'.level with above | level | below
    -- a bit that only one of them tests would not matter to its function
    · refine (here.false_of_independent (fun a b => ?_)
        (edge_eq distinct here.lowBranch here.highBranch)).elim
      rw [equal, equal, Diagram.value_update_above there.ordered above]
    · obtain rfl := here.ordered.1.eq_of_level_eq there.ordered.1 level
      have branch (b : Bool) (a : Bit → Bool) :
          (if b then high else low).value a = (if b then high' else low').value a := by
        have same := equal (Function.update a bit b)
        rw [Diagram.value_update_top here.ordered, Diagram.value_update_top there.ordered, ← least,
          ← sameScale] at same
        exact mul_left_cancel₀ normal.scale_pos.ne' (add_left_cancel same)
      have lowEdge : low.edge = low'.edge :=
        edge_eq distinct here.lowBranch there.lowBranch (branch false)
      have highEdge : high.edge = high'.edge :=
        edge_eq distinct here.highBranch there.highBranch (branch true)
      have stored := there.shows.1
      rw [← lowEdge, ← highEdge] at stored
      have samePlace := distinct _ _ _ here.shows.1 stored
      rw [Diagram.edge_test, Diagram.edge_test, least, sameScale, samePlace]
    · refine (there.false_of_independent (fun a b => ?_)
        (edge_eq distinct there.lowBranch there.highBranch)).elim
      rw [← equal, ← equal, Diagram.value_update_above here.ordered below]
termination_by sizeOf d + sizeOf d'
decreasing_by all_goals simp; omega

theorem Keeps.affine_of_node_eq (here : (exact noTolerance).Keeps t d)
    (there : (exact noTolerance).Keeps t d') (same : d.edge.node = d'.edge.node) :
    ∃ shift factor : Rat, 0 < factor ∧ ∀ a, d.value a = shift + factor * d'.value a := by
  have normal : d.Normal := here.holds
  have normal' : d'.Normal := there.holds
  have shares : d'.SharesNode d := there.shows.sharesNode here.shows same
  have moved (a : Bit → Bool) : d.value a = d.edge.offset + d.edge.scale * d'.body a := by
    conv_lhs => rw [shares, Diagram.value_reshape]
  match d, d' with
  | .constant v, .constant v' =>
    refine ⟨v - v', 1, one_pos, fun a => ?_⟩
    rw [Diagram.value_constant, Diagram.value_constant]
    ring
  | .constant v, .test place offset scale bit low high => cases same
  | .test place offset scale bit low high, .constant v => cases same
  | .test place offset scale bit low high, .test place' offset' scale' bit' low' high' =>
    have positive := normal.scale_pos
    have positive' := normal'.scale_pos
    refine ⟨offset - scale / scale' * offset', scale / scale', div_pos positive positive',
      fun a => ?_⟩
    rw [moved, Diagram.value, Diagram.edge_test, Diagram.edge_test]
    field_simp
    ring

theorem Keeps.node_eq_of_affine (distinct : t.Distinct) (here : (exact noTolerance).Keeps t d)
    (there : (exact noTolerance).Keeps t d') {shift factor : Rat} (positive : 0 < factor)
    (affine : ∀ a, d.value a = shift + factor * d'.value a) : d.edge.node = d'.edge.node := by
  have moved : (exact noTolerance).Keeps t (d'.rescale shift factor) :=
    there.of_sharesNode (.reshape _ _ _) (Diagram.normal_rescale there.holds shift positive)
  rw [here.edge_eq distinct moved fun a => by rw [affine, Diagram.value_rescale]]
  cases d' <;> rfl

end Reading

namespace Store

variable {config : StoreConfig Rat} {s : Store Rat Rat} {f g : Root}

def Denotes (s : Store Rat Rat) (f : Root) (function : (Bit → Bool) → Rat) : Prop :=
  ∀ a : Bit → Bool, s.evaluate f (fun bit => some (a bit)) = .ok (some (function a))

theorem RootShows.denotes {noTolerance : config.tolerance = 0} {d : Diagram Rat}
    (shown : s.RootShows f d) (sound : s.Sound (Reading.exact noTolerance)) :
    s.Denotes f fun a => d.value a :=
  fun _ => shown.evaluate_covered (sound.keeps shown).ordered fun _ _ => rfl

theorem matching_self (noTolerance : config.tolerance = 0) :
    (∀ node : Node Rat, Canonical.matching config.tolerance node node = true) ∧
      ∀ e : Edge Rat, Canonical.matching config.tolerance e e = true := by
  have near (e : Edge Rat) : e.near (0 : Rat) e = true := by
    have nearZero (x : Rat) : Coefficient.near (0 : Rat) x x = true := (Exact.near_zero x x).mpr rfl
    simp [Edge.near, nearZero]
  rw [noTolerance]
  refine ⟨fun node => ?_, fun e => near e⟩
  simp [Canonical.matching, near]

theorem distinct_of_reachable (noTolerance : config.tolerance = 0)
    (reachable : Reachable config s) : s.Distinct :=
  (reachable.indexed (matching_self noTolerance).1 (matching_self noTolerance).2).distinct

theorem RootShows.root_eq {noTolerance : config.tolerance = 0} {d d' : Diagram Rat}
    (shown : s.RootShows f d) (shown' : s.RootShows g d')
    (sound : s.Sound (Reading.exact noTolerance)) (distinct : s.Distinct)
    (equal : ∀ a, d.value a = d'.value a) : f = g := by
  have stored := shown'.1
  rw [← (sound.keeps shown).edge_eq distinct.nodes (sound.keeps shown') equal] at stored
  have sameIndex : f.index = g.index := distinct.roots _ _ _ shown.1 stored
  cases f
  cases g
  congr

/-- In every store on a run, live roots are equal exactly when they evaluate equally everywhere,
and lead to one node exactly when one evaluates to a positive affine image of the other; two
constants, which lead to the terminal, are no exception. -/
theorem canonical (noTolerance : config.tolerance = 0) (reachable : Reachable config s)
    (leftLive : s.roots.isOccupied f.index = true) (rightLive : s.roots.isOccupied g.index = true) :
    ∃ (F G : (Bit → Bool) → Rat) (e e' : Edge Rat), s.Denotes f F ∧ s.Denotes g G ∧
      s.edge f = .ok e ∧ s.edge g = .ok e' ∧ (f = g ↔ ∀ a, F a = G a) ∧
      (e.node = e'.node ↔ ∃ shift factor : Rat, 0 < factor ∧ ∀ a, F a = shift + factor * G a) := by
  have sound : s.Sound (Reading.exact noTolerance) := reachable.sound
  have distinct := distinct_of_reachable noTolerance reachable
  obtain ⟨left, leftShown, here⟩ := sound.rootShows leftLive
  obtain ⟨right, rightShown, there⟩ := sound.rootShows rightLive
  refine ⟨fun a => left.value a, fun a => right.value a, left.edge, right.edge,
    leftShown.denotes sound, rightShown.denotes sound, leftShown.edge_eq, rightShown.edge_eq,
    ⟨?_, leftShown.root_eq rightShown sound distinct⟩, here.affine_of_node_eq there, ?_⟩
  · rintro rfl a
    rw [leftShown.unique rightShown]
  · rintro ⟨shift, factor, positive, affine⟩
    exact here.node_eq_of_affine distinct.nodes there positive affine

theorem canonical_tests :
    let s := (Request.test ⟨1⟩ 3 5).after exactTests
    Reachable .exact s ∧ s.roots.isOccupied 1 = true ∧ s.roots.isOccupied 3 = true ∧
    ∃ (F G : (Bit → Bool) → Rat) (e e' : Edge Rat), s.Denotes ⟨1⟩ F ∧ s.Denotes ⟨3⟩ G ∧
      s.edge ⟨1⟩ = .ok e ∧ s.edge ⟨3⟩ = .ok e' ∧
      ((⟨1⟩ : Root) = ⟨3⟩ ↔ ∀ a, F a = G a) ∧
      (e.node = e'.node ↔
        ∃ shift factor : Rat, 0 < factor ∧ ∀ a, F a = shift + factor * G a) := by
  intro s
  have reachable : Reachable .exact s := .requested reachable_exactTests ⟨by decide, by decide⟩
  have leftLive : s.roots.isOccupied 1 = true := by decide +kernel
  have rightLive : s.roots.isOccupied 3 = true := by decide +kernel
  exact ⟨reachable, leftLive, rightLive, canonical rfl reachable leftLive rightLive⟩

end Store

end BayesDiagram
