import BayesDiagram.Diagram.Edge
import BayesDiagram.Number.Exact

/-! Edges near each other over exact numbers. Nearness is reflexive and symmetric at any tolerance
that is not negative; it is an equivalence only without tolerance. -/
namespace BayesDiagram

namespace Exact

variable {tolerance : Rat}

theorem near_self (tolerable : 0 ≤ tolerance) (x : Rat) : near tolerance x x = true := by
  rw [near, Rat.sub_self, Bool.and_self, decide_eq_true_iff]
  exact tolerable

theorem near_comm (tolerance x y : Rat) : near tolerance x y = near tolerance y x :=
  Bool.and_comm ..

end Exact

namespace Edge

variable {tolerance : Rat} {e f g : Edge Rat}

theorem near_iff : e.near tolerance f = true ↔ e.node = f.node ∧
    Exact.near tolerance e.offset f.offset = true ∧
      (e.isConstant = true ∨ Exact.near tolerance e.scale f.scale = true) := by
  rw [near, Bool.and_eq_true, Bool.and_eq_true, Bool.or_eq_true, beq_iff_eq, and_assoc]
  exact Iff.rfl

theorem near_self (tolerable : 0 ≤ tolerance) (e : Edge Rat) : e.near tolerance e = true :=
  near_iff.mpr ⟨rfl, Exact.near_self tolerable _, .inr (Exact.near_self tolerable _)⟩

theorem near_symm (near : e.near tolerance f = true) : f.near tolerance e = true := by
  obtain ⟨node, offset, scale⟩ := near_iff.mp near
  rw [Exact.near_comm] at offset scale
  exact near_iff.mpr ⟨node.symm, offset, scale.imp_left fun constant => by
    rwa [isConstant, ← node]⟩

theorem near_comm (tolerance : Rat) (e f : Edge Rat) :
    e.near tolerance f = f.near tolerance e :=
  Bool.eq_iff_iff.mpr ⟨near_symm, near_symm⟩

theorem near_of_near_of_near (left : e.near (0 : Rat) f = true)
    (right : e.near (0 : Rat) g = true) : f.near (0 : Rat) g = true := by
  simp only [near_iff, Exact.near_zero] at left right ⊢
  obtain ⟨node, offset, scale⟩ := left
  obtain ⟨node', offset', scale'⟩ := right
  refine ⟨node.symm.trans node', offset.symm.trans offset', ?_⟩
  rcases scale with constant | same
  · exact .inl (by rwa [isConstant, ← node])
  · rcases scale' with constant | same'
    · exact .inl (by rwa [isConstant, ← node])
    · exact .inr (same.symm.trans same')

end Edge

end BayesDiagram
