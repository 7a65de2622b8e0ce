import BayesDiagram.Diagram.Apply
import BayesDiagram.Proofs.Exact.Value

/-! Combinations that need no recursion, over exact numbers: each one has the values of its operands
combined, and no shortcut leads to a diagram that is not normal. -/
namespace BayesDiagram

namespace Exact

/-- Two operands of one store, and an edge that stands for their combination. -/
structure Operands (t : UniqueTable Rat (Node Rat)) (f g result : Diagram Rat) : Prop where
  leftShown : t.Shows f
  rightShown : t.Shows g
  shown : t.Shows result
  left : f.Normal
  right : g.Normal

namespace Operands

variable {t : UniqueTable Rat (Node Rat)} {f g result : Diagram Rat}

theorem eq_of_some (operands : Operands t f g result) {d : Diagram Rat} (shown : t.Shows d)
    (equal : some d.edge = some result.edge) : result = d :=
  shown.eq_of_edge_eq operands.shown (Option.some.inj equal).symm

theorem eq_constant (operands : Operands t f g result) {v : Rat}
    (equal : some (Edge.constant v) = some result.edge) : result = .constant v :=
  operands.eq_of_some (d := .constant v) trivial equal

theorem eq_rescale (operands : Operands t f g result) {d : Diagram Rat} (shown : t.Shows d)
    {shift factor : Rat} (equal : some (d.edge.rescale shift factor) = some result.edge) :
    result = d.rescale shift factor :=
  operands.eq_of_some (shown.of_sharesNode (.reshape _ _ _)) (by rw [Diagram.edge_rescale, equal])

theorem eq_of_key (operands : Operands t f g result) (equal : (f.edge.key == g.edge.key) = true) :
    f = g :=
  operands.rightShown.eq_of_edge_eq operands.leftShown (edge_eq_of_key_eq (beq_iff_eq.mp equal))

theorem value_shifted (operands : Operands t f g result) {d : Diagram Rat} (shown : t.Shows d)
    (normal : d.Normal) {v : Rat} (easy : some (d.edge.rescale v 1) = some result.edge) :
    result.Normal ∧ ∀ a, result.value a = v + d.value a := by
  rw [operands.eq_rescale shown easy]
  refine ⟨Diagram.normal_rescale normal _ one_pos, fun a => ?_⟩
  rw [Diagram.value_rescale, one_mul]

theorem value_sum (operands : Operands t f g result)
    (easy : Store.shortcut? .sum f.edge g.edge = some result.edge) :
    result.Normal ∧ ∀ a, result.value a = f.value a + g.value a := by
  simp only [Store.shortcut?] at easy
  split at easy
  · next isConstant =>
    obtain ⟨v, rfl⟩ := (Diagram.isConstant_edge f).mp isConstant
    obtain ⟨normal, values⟩ := operands.value_shifted operands.rightShown operands.right easy
    refine ⟨normal, fun a => ?_⟩
    rw [values, Diagram.value_constant]
    rfl
  · split at easy
    · next isConstant =>
      obtain ⟨v, rfl⟩ := (Diagram.isConstant_edge g).mp isConstant
      obtain ⟨normal, values⟩ := operands.value_shifted operands.leftShown operands.left easy
      refine ⟨normal, fun a => ?_⟩
      rw [values, Diagram.value_constant]
      exact add_comm v (f.value a)
    · split at easy
      · next keys =>
        rw [operands.eq_rescale operands.leftShown easy, ← operands.eq_of_key keys]
        refine ⟨Diagram.normal_rescale operands.left _ two_pos, fun a => ?_⟩
        rw [Diagram.value_rescale]
        show 0 + 2 * f.value a = f.value a + f.value a
        ring
      · cases easy

theorem value_difference (operands : Operands t f g result)
    (easy : Store.shortcut? .difference f.edge g.edge = some result.edge) :
    result.Normal ∧ ∀ a, result.value a = f.value a - g.value a := by
  simp only [Store.shortcut?] at easy
  split at easy
  · next isConstant =>
    obtain ⟨v, rfl⟩ := (Diagram.isConstant_edge g).mp isConstant
    obtain ⟨normal, values⟩ := operands.value_shifted operands.leftShown operands.left easy
    refine ⟨normal, fun a => ?_⟩
    rw [values, Diagram.value_constant]
    exact neg_add_eq_sub v (f.value a)
  · split at easy
    · next keys =>
      rw [operands.eq_constant easy, ← operands.eq_of_key keys]
      refine ⟨trivial, fun a => ?_⟩
      rw [Diagram.value_constant]
      exact (sub_self (f.value a)).symm
    · cases easy

theorem value_scaled (operands : Operands t f g result) {d : Diagram Rat} (shown : t.Shows d)
    (normal : d.Normal) {v : Rat}
    (easy : Store.shortcut?.scaled v d.edge = some result.edge) :
    result.Normal ∧ ∀ a, result.value a = v * d.value a := by
  simp only [Store.shortcut?.scaled] at easy
  split at easy
  · next isZero =>
    have isZero : v = 0 := beq_iff_eq.mp isZero
    rw [operands.eq_constant easy, isZero]
    refine ⟨trivial, fun a => ?_⟩
    rw [Diagram.value_constant]
    exact (zero_mul (d.value a)).symm
  · split at easy
    · next positive =>
      rw [operands.eq_rescale shown easy]
      refine ⟨Diagram.normal_rescale normal _ positive, fun a => ?_⟩
      rw [Diagram.value_rescale]
      exact zero_add (v * d.value a)
    · cases easy

theorem value_product (operands : Operands t f g result)
    (easy : Store.shortcut? .product f.edge g.edge = some result.edge) :
    result.Normal ∧ ∀ a, result.value a = f.value a * g.value a := by
  simp only [Store.shortcut?] at easy
  split at easy
  · next isConstant =>
    obtain ⟨v, rfl⟩ := (Diagram.isConstant_edge f).mp isConstant
    obtain ⟨normal, values⟩ := operands.value_scaled operands.rightShown operands.right easy
    refine ⟨normal, fun a => ?_⟩
    rw [values, Diagram.value_constant]
    rfl
  · split at easy
    · next isConstant =>
      obtain ⟨v, rfl⟩ := (Diagram.isConstant_edge g).mp isConstant
      obtain ⟨normal, values⟩ := operands.value_scaled operands.leftShown operands.left easy
      refine ⟨normal, fun a => ?_⟩
      rw [values, Diagram.value_constant]
      exact mul_comm v (f.value a)
    · cases easy

theorem value_divide (operands : Operands t f g result)
    (easy : Store.shortcut? .divide f.edge g.edge = some result.edge) :
    result.Normal ∧ ∀ a, result.value a = f.value a / g.value a := by
  simp only [Store.shortcut?] at easy
  split at easy
  · next divisor =>
    obtain ⟨v, rfl⟩ := (Diagram.isConstant_edge g).mp divisor.1
    have positive : 0 < v := divisor.2
    rw [operands.eq_rescale operands.leftShown easy]
    refine ⟨Diagram.normal_rescale operands.left _ (one_div_pos.mpr positive), fun a => ?_⟩
    rw [Diagram.value_rescale, Diagram.value_constant]
    show 0 + 1 / v * f.value a = f.value a / v
    ring
  · cases easy

theorem value_le_of_apart {d d' : Diagram Rat} (normal : d.Normal) (normal' : d'.Normal)
    (apart : d.edge.greatest ≤ d'.edge.least) (a : Bit → Bool) : d.value a ≤ d'.value a :=
  (Diagram.value_mem_span normal a).2.trans
    (le_trans apart (Diagram.value_mem_span normal' a).1)

theorem value_min (operands : Operands t f g result)
    (easy : Store.shortcut? .min f.edge g.edge = some result.edge) :
    result.Normal ∧ ∀ a, result.value a = min (f.value a) (g.value a) := by
  simp only [Store.shortcut?] at easy
  split at easy
  · next first =>
    rw [operands.eq_of_some operands.leftShown easy]
    refine ⟨operands.left, fun a => (min_eq_left ?_).symm⟩
    rcases first with keys | apart
    · rw [operands.eq_of_key keys]
    · exact value_le_of_apart operands.left operands.right apart a
  · split at easy
    · next apart =>
      rw [operands.eq_of_some operands.rightShown easy]
      exact ⟨operands.right, fun a =>
        (min_eq_right (value_le_of_apart operands.right operands.left apart a)).symm⟩
    · cases easy

theorem value_max (operands : Operands t f g result)
    (easy : Store.shortcut? .max f.edge g.edge = some result.edge) :
    result.Normal ∧ ∀ a, result.value a = max (f.value a) (g.value a) := by
  simp only [Store.shortcut?] at easy
  split at easy
  · next first =>
    rw [operands.eq_of_some operands.rightShown easy]
    refine ⟨operands.right, fun a => (max_eq_right ?_).symm⟩
    rcases first with keys | apart
    · rw [operands.eq_of_key keys]
    · exact value_le_of_apart operands.left operands.right apart a
  · split at easy
    · next apart =>
      rw [operands.eq_of_some operands.leftShown easy]
      exact ⟨operands.left, fun a =>
        (max_eq_left (value_le_of_apart operands.right operands.left apart a)).symm⟩
    · cases easy

theorem value_shortcut (operands : Operands t f g result) {op : Operator}
    (easy : Store.shortcut? op f.edge g.edge = some result.edge) :
    result.Normal ∧ ∀ a, result.value a = op.compute (f.value a) (g.value a) := by
  cases op with
  | sum => exact operands.value_sum easy
  | difference => exact operands.value_difference easy
  | product => exact operands.value_product easy
  | divide => exact operands.value_divide easy
  | min =>
    obtain ⟨normal, values⟩ := operands.value_min easy
    exact ⟨normal, fun a => (values a).trans (least_eq_min _ _).symm⟩
  | max =>
    obtain ⟨normal, values⟩ := operands.value_max easy
    exact ⟨normal, fun a => (values a).trans (greatest_eq_max _ _).symm⟩

end Operands

end Exact

end BayesDiagram
