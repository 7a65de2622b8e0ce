import BayesDiagram.Proofs.Diagram.Construction
import BayesDiagram.Proofs.Exact.Value
import Mathlib.Algebra.Order.Group.MinMax

/-! Normal forms of tests over exact numbers. A test decides between its branches, whether it needs
a node or not, and the node over its normalized branches is normal. At a tolerance a test may decide
between branches that are only near to its own, but its node is normal all the same. -/
namespace BayesDiagram

namespace Diagram

variable {d : Diagram Rat} {precision : Precision} {least range : Rat}

theorem value_normalized (a : Bit → Bool) :
    (d.normalized precision least range).value a = (d.value a - least) / range := by
  rw [normalized, value_round, value_reshape, value]
  show (d.edge.offset - least) / range + d.edge.scale / range * d.body a = _
  ring

theorem normal_normalized (normal : d.Normal) (positive : 0 < range) :
    (d.normalized precision least range).Normal := by
  cases d with
  | constant v => trivial
  | test place offset scale bit low high => exact ⟨div_pos normal.1 positive, normal.2⟩

theorem least_normalized :
    (d.normalized precision least range).edge.least = (d.edge.least - least) / range := by
  cases d <;> rfl

theorem greatest_normalized :
    (d.normalized precision least range).edge.greatest = (d.edge.greatest - least) / range := by
  cases d with
  | constant v => rfl
  | test place offset scale bit low high =>
    show (offset - least) / range + scale / range = (offset + scale - least) / range
    ring

theorem SharesNode.eq_normalized {d' : Diagram Rat} (shares : d.SharesNode d')
    (equal : (d.normalized precision least range).edge = d'.edge) :
    d' = d.normalized precision least range :=
  ((d.sharesNode_normalized _ _ _).symm.trans shares).eq_of_edge_eq equal.symm

theorem edge_normalized_injective {d' : Diagram Rat} (positive : 0 < range)
    (equal : (d.normalized precision least range).edge =
      (d'.normalized precision least range).edge) :
    d.edge = d'.edge := by
  have offset {x y : Rat} (same : (x - least) / range = (y - least) / range) : x = y := by
    have := (div_left_inj' positive.ne').mp same
    linarith
  have scale {x y : Rat} (same : x / range = y / range) : x = y :=
    (div_left_inj' positive.ne').mp same
  cases d with
  | constant v =>
    cases d' with
    | constant v' => exact congrArg Edge.constant (offset (congrArg Edge.offset equal))
    | test place' offset' scale' bit' low' high' => cases congrArg Edge.node equal
  | test place offset₁ scale₁ bit low high =>
    cases d' with
    | constant v' => cases congrArg Edge.node equal
    | test place' offset₂ scale₂ bit' low' high' =>
      have sameNode : NodeId.mk (place + 1) = ⟨place' + 1⟩ := congrArg Edge.node equal
      have sameOffset : offset₁ = offset₂ := offset (congrArg Edge.offset equal)
      have sameScale : scale₁ = scale₂ := scale (congrArg Edge.scale equal)
      rw [edge_test, edge_test, sameNode, sameOffset, sameScale]

end Diagram

namespace NormalForm

variable {config : StoreConfig Rat} {bit : Bit} {low high : Diagram Rat}

def span (low high : Edge Rat) : Rat × Rat :=
  let least := min low.least high.least
  (least, max low.greatest high.greatest - least)

theorem ofTest_exact (exact : config.tolerance = 0) (bit : Bit) (low high : Diagram Rat) :
    low.edge = high.edge ∧ ofTest config bit low.edge high.edge = .edge low.edge ∨
    low.edge ≠ high.edge ∧ (span low.edge high.edge).2 ≤ 0 ∧
      ofTest config bit low.edge high.edge = .edge (.constant (span low.edge high.edge).1) ∨
    low.edge ≠ high.edge ∧ 0 < (span low.edge high.edge).2 ∧
      ∃ least range, (least, range) = span low.edge high.edge ∧
        ofTest config bit low.edge high.edge =
          .node least range ⟨bit, (low.normalized config.precision least range).edge,
            (high.normalized config.precision least range).edge⟩ := by
  rw [ofTest, exact]
  by_cases same : low.edge = high.edge
  · exact .inl ⟨same, if_pos (Exact.near_zero_iff.mpr same)⟩
  · rw [if_neg fun near => same (Exact.near_zero_iff.mp near)]
    simp only [Exact.least_eq_min, Exact.greatest_eq_max, ← Diagram.edge_normalized]
    by_cases narrow : (span low.edge high.edge).2 ≤ 0
    · exact .inr (.inl ⟨same, narrow, if_pos narrow⟩)
    · exact .inr (.inr ⟨same, not_le.mp narrow, _, _, rfl, if_neg narrow⟩)

theorem eq_constant_of_edge {d : Diagram Rat} {v : Rat} (equal : d.edge = .constant v) :
    d = .constant v := by
  obtain ⟨w, rfl⟩ := (Diagram.isConstant_edge d).mp (by rw [equal]; rfl)
  exact congrArg Diagram.constant (congrArg Edge.offset equal)

theorem value_of_narrow (lowNormal : low.Normal) (highNormal : high.Normal)
    (narrow : (span low.edge high.edge).2 ≤ 0) (a : Bit → Bool) :
    low.value a = (span low.edge high.edge).1 ∧ high.value a = (span low.edge high.edge).1 := by
  have bound : max low.edge.greatest high.edge.greatest ≤ min low.edge.least high.edge.least :=
    sub_nonpos.mp narrow
  obtain ⟨lowLeast, lowGreatest⟩ := Diagram.value_mem_span lowNormal a
  obtain ⟨highLeast, highGreatest⟩ := Diagram.value_mem_span highNormal a
  show low.value a = min _ _ ∧ high.value a = min _ _
  exact ⟨le_antisymm (lowGreatest.trans ((le_max_left _ _).trans bound))
      ((min_le_left _ _).trans lowLeast),
    le_antisymm (highGreatest.trans ((le_max_right _ _).trans bound))
      ((min_le_right _ _).trans highLeast)⟩

theorem value_of_edge {t : UniqueTable Rat (Node Rat)} {result : Diagram Rat}
    (noTolerance : config.tolerance = 0) (lowShown : t.Shows low) (highShown : t.Shows high)
    (lowNormal : low.Normal) (highNormal : high.Normal)
    (easy : ofTest config bit low.edge high.edge = .edge result.edge)
    (shape : result = low ∨ ∃ value, result = .constant value) :
    result.Normal ∧ ∀ a, result.value a = if a bit then high.value a else low.value a := by
  rcases ofTest_exact noTolerance bit low high with
    ⟨same, form⟩ | ⟨-, narrow, form⟩ | ⟨-, -, least, range, -, form⟩
  · rw [form, edge.injEq] at easy
    have resultLow : result = low := by
      rcases shape with rfl | ⟨v, rfl⟩
      · rfl
      · exact (eq_constant_of_edge easy).symm
    rw [resultLow, lowShown.eq_of_edge_eq highShown same.symm]
    exact ⟨lowNormal, fun a => (ite_self _).symm⟩
  · rw [form, edge.injEq] at easy
    rw [eq_constant_of_edge easy.symm]
    refine ⟨trivial, fun a => ?_⟩
    obtain ⟨lowValue, highValue⟩ := value_of_narrow lowNormal highNormal narrow a
    rw [Diagram.value_constant, lowValue, highValue, ite_self]
  · rw [form] at easy
    cases easy

theorem normal_of_span {place : Nat} {offset least range : Rat} {precision : Precision}
    (lowNormal : low.Normal) (highNormal : high.Normal) (differ : low.edge ≠ high.edge)
    (wide : 0 < range) (spans : (least, range) = span low.edge high.edge) :
    (Diagram.test place offset range bit (low.normalized precision least range)
      (high.normalized precision least range)).Normal := by
  obtain ⟨leastEq, rangeEq⟩ := Prod.mk.inj spans
  have greatestEq : max low.edge.greatest high.edge.greatest = least + range := by
    rw [rangeEq, leastEq]
    ring
  refine ⟨wide, Diagram.normal_normalized lowNormal wide,
    Diagram.normal_normalized highNormal wide, ?_, ?_,
    fun equal => differ (Diagram.edge_normalized_injective wide equal)⟩
  · rw [Diagram.least_normalized, Diagram.least_normalized, min_div_div_right wide.le,
      min_sub_sub_right, ← leastEq, sub_self, zero_div]
  · rw [Diagram.greatest_normalized, Diagram.greatest_normalized, max_div_div_right wide.le,
      max_sub_sub_right, greatestEq, add_sub_cancel_left, div_self wide.ne']

theorem value_of_node {low' high' : Diagram Rat} {place : Nat} {offset scale : Rat}
    {node : Node Rat} (noTolerance : config.tolerance = 0) (lowNormal : low.Normal)
    (highNormal : high.Normal)
    (form : ofTest config bit low.edge high.edge = .node offset scale node)
    (sharesLow : low.SharesNode low') (sharesHigh : high.SharesNode high')
    (put : node = ⟨bit, low'.edge, high'.edge⟩ ∨
      Canonical.matching config.tolerance node ⟨bit, low'.edge, high'.edge⟩ = true) :
    (Diagram.test place offset scale bit low' high').Normal ∧
      ∀ a, (Diagram.test place offset scale bit low' high').value a =
        if a bit then high.value a else low.value a := by
  rcases ofTest_exact noTolerance bit low high with
    ⟨-, form'⟩ | ⟨-, -, form'⟩ | ⟨differ, wide, least, range, spans, form'⟩
  · rw [form'] at form
    cases form
  · rw [form'] at form
    cases form
  · rw [form', NormalForm.node.injEq] at form
    obtain ⟨rfl, rfl, made⟩ := form
    rw [noTolerance] at put
    have stored := put.elim id (Exact.eq_of_matching made.symm)
    rw [← made, Node.mk.injEq] at stored
    obtain ⟨-, lowEdge, highEdge⟩ := stored
    rw [← spans] at wide
    rw [sharesLow.eq_normalized lowEdge, sharesHigh.eq_normalized highEdge]
    refine ⟨normal_of_span lowNormal highNormal differ wide spans, fun a => ?_⟩
    rw [Diagram.value_test, Diagram.value_normalized, Diagram.value_normalized]
    have affine (x : Rat) : least + range * ((x - least) / range) = x := by
      rw [mul_div_cancel₀ _ wide.ne']
      ring
    split
    · exact affine _
    · exact affine _

/-! ### Tolerances -/

variable {low' high' : Diagram Rat} {offset scale : Rat} {node : Node Rat}

theorem span_of_node (tolerable : 0 ≤ config.tolerance)
    (form : ofTest config bit low.edge high.edge = .node offset scale node) :
    low.edge ≠ high.edge ∧ 0 < scale ∧ (offset, scale) = span low.edge high.edge ∧
      node = ⟨bit, (low.normalized config.precision offset scale).edge,
        (high.normalized config.precision offset scale).edge⟩ := by
  rw [ofTest] at form
  split at form
  · cases form
  · next apart =>
    simp only [Exact.least_eq_min, Exact.greatest_eq_max, ← Diagram.edge_normalized] at form
    split at form
    · cases form
    · next wide =>
      rw [NormalForm.node.injEq] at form
      obtain ⟨rfl, rfl, rfl⟩ := form
      refine ⟨fun same => apart ?_, tolerable.trans_lt (not_le.mp wide), rfl, rfl⟩
      rw [same]
      exact Edge.near_self tolerable _

/-- The node of a test is normal, whether it is new or one that matches it. -/
theorem normal_of_node {place : Nat} (tolerable : 0 ≤ config.tolerance) (lowNormal : low.Normal)
    (highNormal : high.Normal)
    (form : ofTest config bit low.edge high.edge = .node offset scale node)
    (sharesLow : low.SharesNode low') (sharesHigh : high.SharesNode high')
    (put : node = ⟨bit, low'.edge, high'.edge⟩ ∨
      (Diagram.test place 0 1 bit low' high').Normal) :
    (Diagram.test place offset scale bit low' high').Normal := by
  obtain ⟨differ, wide, spans, made⟩ := span_of_node tolerable form
  rcases put with new | matched
  · rw [made, Node.mk.injEq] at new
    obtain ⟨-, lowEdge, highEdge⟩ := new
    rw [sharesLow.eq_normalized lowEdge, sharesHigh.eq_normalized highEdge]
    exact normal_of_span lowNormal highNormal differ wide spans
  · exact ⟨wide, matched.2⟩

end NormalForm

end BayesDiagram
