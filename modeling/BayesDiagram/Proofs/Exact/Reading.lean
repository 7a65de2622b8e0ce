import BayesDiagram.Proofs.Diagram.Invariant
import BayesDiagram.Proofs.Exact.NormalForm
import BayesDiagram.Proofs.Exact.Shortcut
import Mathlib.Tactic.FieldSimp

/-! The readings over exact numbers: with no tolerance diagrams are normal and stand for their
functions, and at any tolerance they are still normal. -/
namespace BayesDiagram

namespace Exact

theorem compute_comm {op : Operator} (commutes : op.isCommutative = true) (x y : Rat) :
    op.compute x y = op.compute y x := by
  cases op with
  | product => exact mul_comm x y
  | sum => exact add_comm x y
  | min =>
    show Coefficient.least x y = Coefficient.least y x
    rw [least_eq_min, least_eq_min, min_comm]
  | max =>
    show Coefficient.greatest x y = Coefficient.greatest y x
    rw [greatest_eq_max, greatest_eq_max, max_comm]
  | difference => cases commutes
  | divide => cases commutes

theorem affine_min {shift factor : Rat} (positive : 0 < factor) (x y : Rat) :
    shift + factor * min x y = min (shift + factor * x) (shift + factor * y) := by
  rw [mul_min_of_nonneg _ _ positive.le, min_add_add_left]

theorem affine_max {shift factor : Rat} (positive : 0 < factor) (x y : Rat) :
    shift + factor * max x y = max (shift + factor * x) (shift + factor * y) := by
  rw [mul_max_of_nonneg _ _ positive.le, max_add_add_left]

theorem value_factored {op : Operator} {f g : Diagram Rat} {precision : Precision}
    {left right : Edge Rat} {shift factor : Rat} (leftNormal : f.Normal) (rightNormal : g.Normal)
    (found : Store.factored? precision op f.edge g.edge = some ⟨left, right, shift, factor⟩) :
    0 < left.scale ∧ 0 < right.scale ∧ 0 < factor ∧
      ∀ a, shift + factor * op.compute ((f.reshape left.offset left.scale).value a)
        ((g.reshape right.offset right.scale).value a) = op.compute (f.value a) (g.value a) := by
  cases f with
  | constant v => simp [Store.factored?] at found
  | test place offset scale bit low high =>
    cases g with
    | constant v => simp [Store.factored?] at found
    | test place' offset' scale' bit' low' high' =>
      have positive : 0 < scale := leftNormal.scale_pos
      have positive' : 0 < scale' := rightNormal.scale_pos
      have ratio : 0 < scale' / scale := div_pos positive' positive
      -- the operands enter through the values of their nodes only
      suffices affine : 0 < left.scale ∧ 0 < right.scale ∧ 0 < factor ∧ ∀ x y : Rat,
          shift + factor * op.compute (left.offset + left.scale * x)
            (right.offset + right.scale * y) =
          op.compute (offset + scale * x) (offset' + scale' * y) by
        obtain ⟨leftScale, rightScale, factorPos, values⟩ := affine
        refine ⟨leftScale, rightScale, factorPos, fun a => ?_⟩
        rw [Diagram.value_reshape, Diagram.value_reshape]
        exact values _ _
      have unit (y : Rat) : scale * (scale' / scale * y) = scale' * y := by
        rw [← mul_assoc, mul_div_cancel₀ _ positive.ne']
      have aligned (y : Rat) :
          offset + scale * ((offset' - offset) / scale + scale' / scale * y) =
            offset' + scale' * y := by
        rw [mul_add, unit, mul_div_cancel₀ _ positive.ne']
        ring
      have inner (node : Nat) : (NodeId.mk (node + 1)).isTerminal = false := rfl
      cases op <;>
        simp only [Store.factored?, Diagram.edge_test, Edge.isConstant, Edge.round, inner,
          Bool.false_eq_true, or_self, if_false, Option.some.injEq, Store.Factored.mk.injEq,
          reduceCtorEq] at found <;>
        obtain ⟨rfl, rfl, rfl, rfl⟩ := found
      case product =>
        refine ⟨one_pos, one_pos, mul_pos positive positive', fun x y => ?_⟩
        show 0 + scale * scale' * ((offset / scale + 1 * x) * (offset' / scale' + 1 * y)) =
          (offset + scale * x) * (offset' + scale' * y)
        field_simp
        ring
      case sum =>
        refine ⟨one_pos, ratio, positive, fun x y => ?_⟩
        show offset + offset' + scale * (0 + 1 * x + (0 + scale' / scale * y)) =
          offset + scale * x + (offset' + scale' * y)
        rw [← unit y]
        ring
      case difference =>
        refine ⟨one_pos, ratio, positive, fun x y => ?_⟩
        show offset - offset' + scale * (0 + 1 * x - (0 + scale' / scale * y)) =
          offset + scale * x - (offset' + scale' * y)
        rw [← unit y]
        ring
      case min =>
        refine ⟨one_pos, ratio, positive, fun x y => ?_⟩
        show offset + scale * Coefficient.least (0 + 1 * x)
            ((offset' - offset) / scale + scale' / scale * y) =
          Coefficient.least (offset + scale * x) (offset' + scale' * y)
        rw [least_eq_min, least_eq_min, affine_min positive, aligned,
          zero_add, one_mul]
      case max =>
        refine ⟨one_pos, ratio, positive, fun x y => ?_⟩
        show offset + scale * Coefficient.greatest (0 + 1 * x)
            ((offset' - offset) / scale + scale' / scale * y) =
          Coefficient.greatest (offset + scale * x) (offset' + scale' * y)
        rw [greatest_eq_max, greatest_eq_max, affine_max positive, aligned,
          zero_add, one_mul]

end Exact

/-- Diagrams over exact numbers are normal and stand for their functions. -/
def Reading.exact {config : StoreConfig Rat} (noTolerance : config.tolerance = 0) :
    Reading Rat Rat config where
  Holds d := d.Normal
  Decides bit low high result :=
    ∀ a, result.value a = if a bit then high.value a else low.value a
  Combines op f g result := ∀ a, result.value a = op.compute (f.value a) (g.value a)
  Fixes bit value d result := ∀ a, a bit = value → result.value a = d.value a
  constant _ := trivial
  round normal := normal.round _
  branches normal := ⟨normal.2.1, normal.2.2.1⟩
  body normal := ⟨one_pos, normal.2⟩
  cofactor bit value normal := Diagram.normal_cofactor normal _ bit value
  decides_edge _ lowShown highShown low high easy shape :=
    NormalForm.value_of_edge noTolerance lowShown highShown low high easy shape
  decides_node _ low high form sharesLow sharesHigh put := by
    obtain ⟨normal, values⟩ :=
      NormalForm.value_of_node noTolerance low high form sharesLow sharesHigh
        (put.imp_right And.left)
    exact ⟨normal.round _, fun a => (Diagram.value_round _).trans (values a)⟩
  combines_constant op x y a := by
    rw [Diagram.value_constant, Diagram.value_constant, Diagram.value_constant]
    rfl
  combines_shortcut leftShown rightShown shown left right easy := by
    obtain ⟨normal, values⟩ :=
      Exact.Operands.value_shortcut ⟨leftShown, rightShown, shown, left, right⟩ easy
    exact ⟨normal.round _, fun a => (Diagram.value_round _).trans (values a)⟩
  combines_swap commutes combines a :=
    (combines a).trans (Exact.compute_comm commutes _ _)
  combines_factored left right found := by
    obtain ⟨leftScale, rightScale, factor, values⟩ := Exact.value_factored left right found
    refine ⟨Diagram.normal_reshape left leftScale, Diagram.normal_reshape right rightScale,
      fun inner normal combines => ⟨(Diagram.normal_rescale normal _ factor).round _, fun a => ?_⟩⟩
    rw [Diagram.value_round, Diagram.value_rescale, combines, values]
  combines_branches {op bit f g low high result} lowCombines highCombines decides a := by
    rw [decides]
    cases fixed : a bit with
    | true =>
      rw [if_pos rfl, highCombines, Diagram.value_cofactor _ fixed, Diagram.value_cofactor _ fixed]
    | false =>
      rw [if_neg Bool.false_ne_true, lowCombines, Diagram.value_cofactor _ fixed,
        Diagram.value_cofactor _ fixed]
  combines_key sharesLeft left sharesRight right combines := by
    rw [sharesLeft.eq_of_edge_eq (Exact.edge_eq_of_key_eq left),
      sharesRight.eq_of_edge_eq (Exact.edge_eq_of_key_eq right)]
    exact combines
  fixes_absent _ _ _ _ := rfl
  fixes_top _ _ _ _ _ _ _ _ fixed := Diagram.value_cofactor _ fixed
  fixes_branches _ _ lowFixes highFixes decides a fixed := by
    rw [decides, lowFixes a fixed, highFixes a fixed, Diagram.value_test]
    ring
  fixes_under {place offset scale bit top value low high inner} normal innerNormal fixes := by
    refine ⟨(Diagram.normal_rescale innerNormal offset normal.scale_pos).round _, fun a fixed => ?_⟩
    rw [Diagram.value_round, Diagram.value_under, fixes a fixed, Diagram.value_test,
      Diagram.value_test]
    ring

def Reading.normal {config : StoreConfig Rat} (tolerable : 0 ≤ config.tolerance) :
    Reading Rat Rat config where
  Holds d := d.Normal
  Decides _ _ _ _ := True
  Combines _ _ _ _ := True
  Fixes _ _ _ _ := True
  constant _ := trivial
  round normal := normal.round _
  branches normal := ⟨normal.2.1, normal.2.2.1⟩
  body normal := ⟨one_pos, normal.2⟩
  cofactor bit value normal := Diagram.normal_cofactor normal _ bit value
  decides_edge _ _ _ low _ _ shape := by
    rcases shape with rfl | ⟨v, rfl⟩
    · exact ⟨low, trivial⟩
    · exact ⟨trivial, trivial⟩
  decides_node _ low high form sharesLow sharesHigh put :=
    ⟨(NormalForm.normal_of_node tolerable low high form sharesLow sharesHigh
      (put.imp_right And.right)).round _, trivial⟩
  combines_constant _ _ _ := trivial
  combines_shortcut leftShown rightShown shown left right easy :=
    ⟨(Exact.Operands.value_shortcut ⟨leftShown, rightShown, shown, left, right⟩ easy).1.round _,
      trivial⟩
  combines_swap _ _ := trivial
  combines_factored left right found := by
    obtain ⟨leftScale, rightScale, factor, -⟩ := Exact.value_factored left right found
    exact ⟨Diagram.normal_reshape left leftScale, Diagram.normal_reshape right rightScale,
      fun _ normal _ => ⟨(Diagram.normal_rescale normal _ factor).round _, trivial⟩⟩
  combines_branches _ _ _ := trivial
  combines_key _ _ _ _ _ := trivial
  fixes_absent _ _ := trivial
  fixes_top _ _ _ _ _ _ _ := trivial
  fixes_branches _ _ _ _ _ := trivial
  fixes_under normal innerNormal _ :=
    ⟨(Diagram.normal_rescale innerNormal _ normal.scale_pos).round _, trivial⟩

end BayesDiagram
