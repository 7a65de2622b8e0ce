import BayesDiagram.Proofs.Diagram.Unfolding
import BayesDiagram.Proofs.Exact.Nearness
import Mathlib.Algebra.Order.Field.Basic
import Mathlib.Algebra.Order.Ring.Rat
import Mathlib.Tactic.Linarith
import Mathlib.Tactic.Ring

/-! Diagrams over exact numbers. A diagram is a function of all bits, and every node is normal:
the least and the greatest value of its branches are zero and one. -/
namespace BayesDiagram

namespace Diagram

def body (a : Bit → Bool) : Diagram Rat → Rat
  | constant _ => 0
  | test _ _ _ bit low high =>
    if a bit then high.edge.offset + high.edge.scale * high.body a
    else low.edge.offset + low.edge.scale * low.body a

def value (a : Bit → Bool) (d : Diagram Rat) : Rat :=
  d.edge.offset + d.edge.scale * d.body a

/-- Positive scales, and nodes that span the unit interval and do test their bits. -/
def Normal : Diagram Rat → Prop
  | constant _ => True
  | test _ _ scale _ low high =>
    0 < scale ∧ low.Normal ∧ high.Normal ∧ min low.edge.least high.edge.least = 0 ∧
      max low.edge.greatest high.edge.greatest = 1 ∧ low.edge ≠ high.edge

variable {d d' : Diagram Rat} {a : Bit → Bool}

@[simp] theorem value_constant (v : Rat) : (constant v).value a = v := by
  show v + 0 * 0 = v
  ring

theorem value_test {place : Nat} {offset scale : Rat} {bit : Bit} {low high : Diagram Rat} :
    (test place offset scale bit low high).value a =
      offset + scale * if a bit then high.value a else low.value a := rfl

theorem value_reshape (offset scale : Rat) :
    (d.reshape offset scale).value a = offset + scale * d.body a := by
  cases d with
  | constant v =>
    show offset + 0 * 0 = offset + scale * 0
    ring
  | test place offset' scale' bit low high => rfl

@[simp] theorem value_round (precision : Precision) : (d.round precision).value a = d.value a :=
  value_reshape _ _

theorem value_rescale (shift factor : Rat) :
    (d.rescale shift factor).value a = shift + factor * d.value a := by
  rw [rescale, value_reshape, value]
  ring

theorem value_under (outer : Edge Rat) :
    (d.under outer).value a = outer.offset + outer.scale * d.value a := by
  rw [under, value_reshape, value]
  ring

theorem value_cofactor (precision : Precision) {bit : Bit} {value : Bool} (fixed : a bit = value) :
    (d.cofactor precision bit value).value a = d.value a := by
  cases d with
  | constant v => rfl
  | test place offset scale top low high =>
    rw [cofactor]
    split
    · next here =>
      subst here
      rw [value_round, value_under, value_test, fixed]
      cases value <;> rfl
    · rfl

theorem value_congr {b : Bit → Bool} (agree : ∀ bit ∈ d.bits, a bit = b bit) :
    d.value a = d.value b := by
  induction d with
  | constant v => rw [value_constant, value_constant]
  | test place offset scale bit low high ihLow ihHigh =>
    obtain ⟨here, agreeLow, agreeHigh⟩ := forall_mem_bits_test.mp agree
    rw [value_test, value_test, here, ihLow agreeLow, ihHigh agreeHigh]

theorem evaluate_covered {assignment : Assignment}
    (covers : ∀ bit ∈ d.bits, assignment bit = some (a bit)) (sum factor : Rat) :
    d.evaluate assignment sum factor = some (sum + factor * d.value a) := by
  induction d generalizing sum factor with
  | constant v => rw [evaluate, value_constant]
  | test place offset scale bit low high ihLow ihHigh =>
    obtain ⟨here, coversLow, coversHigh⟩ := forall_mem_bits_test.mp covers
    have lowValue := ihLow coversLow
    have highValue := ihHigh coversHigh
    rw [evaluate, value_test, here]
    cases a bit with
    | true =>
      simp only [highValue, if_true, Option.some.injEq]
      show sum + factor * offset + factor * scale * high.value a = _
      ring
    | false =>
      simp only [lowValue, Bool.false_eq_true, if_false, Option.some.injEq]
      show sum + factor * offset + factor * scale * low.value a = _
      ring

/-! ### Normal diagrams -/

theorem normal_reshape (normal : d.Normal) {offset scale : Rat} (positive : 0 < scale) :
    (d.reshape offset scale).Normal := by
  cases d with
  | constant v => trivial
  | test place offset' scale' bit low high => exact ⟨positive, normal.2⟩

theorem Normal.scale_pos {place : Nat} {offset scale : Rat} {bit : Bit} {low high : Diagram Rat}
    (normal : (test place offset scale bit low high).Normal) : 0 < scale :=
  normal.1

theorem normal_rescale (normal : d.Normal) (shift : Rat) {factor : Rat} (positive : 0 < factor) :
    (d.rescale shift factor).Normal := by
  cases d with
  | constant v => trivial
  | test place offset scale bit low high => exact ⟨mul_pos positive normal.1, normal.2⟩

theorem Normal.round (normal : d.Normal) (precision : Precision) : (d.round precision).Normal := by
  cases d with
  | constant v => trivial
  | test place offset scale bit low high => exact normal

theorem normal_cofactor (normal : d.Normal) (precision : Precision) (bit : Bit) (value : Bool) :
    (d.cofactor precision bit value).Normal := by
  cases d with
  | constant v => trivial
  | test place offset scale top low high =>
    rw [cofactor]
    split
    · refine Normal.round ?_ precision
      cases value
      · exact normal_rescale normal.2.1 offset normal.scale_pos
      · exact normal_rescale normal.2.2.1 offset normal.scale_pos
    · exact normal

theorem value_mem_span (normal : d.Normal) (a : Bit → Bool) :
    d.edge.least ≤ d.value a ∧ d.value a ≤ d.edge.greatest := by
  induction d with
  | constant v =>
    rw [value_constant]
    exact ⟨le_refl v, le_refl v⟩
  | test place offset scale bit low high ihLow ihHigh =>
    obtain ⟨positive, lowNormal, highNormal, least, greatest, -⟩ := normal
    obtain ⟨lowLeast, lowGreatest⟩ := ihLow lowNormal
    obtain ⟨highLeast, highGreatest⟩ := ihHigh highNormal
    have inner : 0 ≤ (if a bit then high.value a else low.value a) ∧
        (if a bit then high.value a else low.value a) ≤ 1 := by
      rw [← least, ← greatest]
      split
      · exact ⟨(min_le_right _ _).trans highLeast, highGreatest.trans (le_max_right _ _)⟩
      · exact ⟨(min_le_left _ _).trans lowLeast, lowGreatest.trans (le_max_left _ _)⟩
    have lower := mul_nonneg positive.le inner.1
    have upper := mul_le_of_le_one_right positive.le inner.2
    rw [value_test]
    show offset ≤ _ ∧ _ ≤ offset + scale
    constructor
    · linarith
    · linarith

end Diagram

namespace Exact

theorem least_eq_min (x y : Rat) : Coefficient.least x y = min x y := by
  rw [min_comm, min_def_lt]
  rfl

theorem greatest_eq_max (x y : Rat) : Coefficient.greatest x y = max x y := by
  rw [max_def_lt]
  rfl

theorem edge_eq_of_key_eq {e e' : Edge Rat} (equal : e.key = e'.key) : e = e' := by
  obtain ⟨offset, scale, ⟨index⟩⟩ := e
  obtain ⟨offset', scale', ⟨index'⟩⟩ := e'
  simp only [Edge.key, List.cons.injEq, and_true] at equal
  obtain ⟨sameNode, offset₁, offset₂, scale₁, scale₂⟩ := equal
  rw [sameNode, words_injective (Prod.ext offset₁ offset₂),
    words_injective (Prod.ext scale₁ scale₂)]

theorem near_zero_iff {d d' : Diagram Rat} :
    d.edge.near (0 : Rat) d'.edge = true ↔ d.edge = d'.edge := by
  rw [Edge.near_iff, near_zero, near_zero]
  constructor
  · rintro ⟨node, offset, constant | scale⟩
    · obtain ⟨v, rfl⟩ := (Diagram.isConstant_edge d).mp constant
      obtain ⟨v', rfl⟩ := (Diagram.isConstant_edge d').mp (by rw [Edge.isConstant, ← node]; rfl)
      exact congrArg Edge.constant offset
    · cases left : d.edge
      cases right : d'.edge
      simp only [left, right] at node offset scale
      rw [node, offset, scale]
  · intro equal
    rw [equal]
    exact ⟨rfl, rfl, .inr rfl⟩

theorem eq_of_matching {bit : Bit} {low high low' high' : Diagram Rat} {node : Node Rat}
    (made : node = ⟨bit, low.edge, high.edge⟩)
    (fits : Canonical.matching (0 : Rat) node ⟨bit, low'.edge, high'.edge⟩ = true) :
    node = ⟨bit, low'.edge, high'.edge⟩ := by
  subst made
  simp only [Canonical.matching, Bool.and_eq_true, near_zero_iff] at fits
  rw [fits.1.2, fits.2]

end Exact

end BayesDiagram
