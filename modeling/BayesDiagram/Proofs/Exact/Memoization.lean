import BayesDiagram.Proofs.Exact.Canonicity
import BayesDiagram.Proofs.Exact.Representatives

/-! Memoization. A combination that was computed is found again: asked for once more, in either order
of the operands if the operator commutes, it is answered with the same root after one look-up at
most, and nothing but the count of the look-ups that found a result changes. -/
namespace BayesDiagram

namespace Store

section Generic

variable {σ κ : Type} [Scalar σ] [Coefficient σ κ] {s s' s₁ : Store σ κ} {op : Operator}
  {f g e : Edge κ} {below : Edge κ → Edge κ → StoreM σ κ (Edge κ)}

omit [Scalar σ] [Coefficient σ κ] in
/-- The store after some look-ups of combinations that found a result, all else as it was. -/
def afterHits (s : Store σ κ) (hits : Nat) : Store σ κ :=
  { s with applied := { s.applied with hits := s.applied.hits + hits } }

/-! ### Results found again -/

theorem found_of_branchApply (run : branchApply below op f g s = .ok e s') :
    s'.applied.entries[(⟨op, f.key, g.key⟩ : ApplyKey)]? = some e := by
  rw [branchApply, StoreM.bind_of_ok (lookupApplied_run s _)] at run
  cases found : s.applied.entries[(⟨op, f.key, g.key⟩ : ApplyKey)]? with
  | some result =>
    rw [found] at run
    cases run
    rw [ComputedTable.lookup_snd_entries, found]
  | none =>
    rw [found] at run
    obtain ⟨bit, _, -, run⟩ := StoreM.bind_eq_ok.mp run
    obtain ⟨left, _, -, run⟩ := StoreM.bind_eq_ok.mp run
    obtain ⟨right, _, -, run⟩ := StoreM.bind_eq_ok.mp run
    obtain ⟨low, _, -, run⟩ := StoreM.bind_eq_ok.mp run
    obtain ⟨high, _, -, run⟩ := StoreM.bind_eq_ok.mp run
    obtain ⟨result, _, -, run⟩ := StoreM.bind_eq_ok.mp run
    cases run
    exact Std.TreeMap.getElem?_insert_self

theorem branchApply_of_found
    (found : s.applied.entries[(⟨op, f.key, g.key⟩ : ApplyKey)]? = some e) :
    branchApply below op f g s = .ok e (s.afterHits 1) := by
  rw [branchApply, StoreM.bind_of_ok (lookupApplied_run s _), ComputedTable.lookup, found]
  rfl

theorem applyStep_of_constants (constants : f.isConstant = true ∧ g.isConstant = true)
    (s : Store σ κ) : applyStep below op f g s =
      .ok ((Edge.constant (op.compute f.offset g.offset)).round s.config.precision) s := by
  rw [applyStep, if_pos constants]
  rfl

theorem applyStep_of_some (inner : ¬(f.isConstant = true ∧ g.isConstant = true))
    (easy : shortcut? op f g = some e) (s : Store σ κ) :
    applyStep below op f g s = .ok (e.round s.config.precision) s := by
  rw [applyStep, if_neg inner, easy]
  rfl

theorem applyStep_of_none (inner : ¬(f.isConstant = true ∧ g.isConstant = true))
    (hard : shortcut? op f g = none) (s : Store σ κ) :
    applyStep below op f g s =
      (match factored? s.config.precision op (ordered op f g).1 (ordered op f g).2 with
      | some ⟨left, right, shift, factor⟩ => do
        let result ← branchApply below op left right
        roundEdge (result.rescale shift factor)
      | none => branchApply below op (ordered op f g).1 (ordered op f g).2) s := by
  rw [applyStep, if_neg inner, hard]
  rfl

theorem applyStep_again (run : applyStep below op f g s = .ok e s') (kept : s'.config = s.config)
    (config : s₁.config = s.config) (results : s₁.applied.entries = s'.applied.entries) :
    ∃ hits ≤ 1, applyStep below op f g s₁ = .ok e (s₁.afterHits hits) := by
  by_cases constants : f.isConstant = true ∧ g.isConstant = true
  · rw [applyStep_of_constants constants, ← config] at run
    cases run
    exact ⟨0, Nat.zero_le 1, applyStep_of_constants constants s₁⟩
  · cases easy : shortcut? op f g with
    | some result =>
      rw [applyStep_of_some constants easy, ← config] at run
      cases run
      exact ⟨0, Nat.zero_le 1, applyStep_of_some constants easy s₁⟩
    | none =>
      refine ⟨1, Nat.le_refl 1, ?_⟩
      rw [applyStep_of_none constants easy] at run ⊢
      rw [config]
      cases factored : factored? s.config.precision op (ordered op f g).1 (ordered op f g).2 with
      | none =>
        rw [factored] at run
        exact branchApply_of_found (results ▸ found_of_branchApply run)
      | some parts =>
        -- the result is kept for the factored operands; the rescaling is done anew
        obtain ⟨left, right, shift, factor⟩ := parts
        rw [factored] at run
        obtain ⟨result, mid, combined, run⟩ := StoreM.bind_eq_ok.mp run
        rw [roundEdge_run] at run
        cases run
        dsimp only
        rw [StoreM.bind_of_ok (branchApply_of_found (results ▸ found_of_branchApply combined)),
          roundEdge_run, kept, ← config]
        rfl

theorem applyLevels_again {levels : Nat} (run : applyLevels op levels f g s = .ok e s')
    (kept : s'.config = s.config) (config : s₁.config = s.config)
    (results : s₁.applied.entries = s'.applied.entries) :
    ∃ hits ≤ 1, applyLevels op levels f g s₁ = .ok e (s₁.afterHits hits) := by
  cases levels with
  | zero => cases run
  | succ levels => exact applyStep_again run kept config results

end Generic

/-! ### Operands in the other order -/

section Exact

variable {config : StoreConfig Rat} {s : Store Rat Rat} {op : Operator} {f g : Diagram Rat}
  {below : Edge Rat → Edge Rat → StoreM Rat Rat (Edge Rat)}

theorem least_le_greatest (normal : f.Normal) : f.edge.least ≤ f.edge.greatest ∧
    (f.edge.isConstant = false → f.edge.least < f.edge.greatest) := by
  cases f with
  | constant v => exact ⟨le_refl v, nofun⟩
  | test place offset scale bit low high =>
    have wider : offset < offset + scale := lt_add_of_pos_right offset normal.scale_pos
    exact ⟨wider.le, fun _ => wider⟩

theorem not_apart_both (left : f.Normal) (right : g.Normal)
    (inner : ¬(f.edge.isConstant = true ∧ g.edge.isConstant = true))
    (below : f.edge.greatest ≤ g.edge.least) : ¬g.edge.greatest ≤ f.edge.least := by
  intro above
  have leftSpan := least_le_greatest left
  have rightSpan := least_le_greatest right
  rw [not_and_or, Bool.not_eq_true, Bool.not_eq_true] at inner
  rcases inner with varies | varies
  · have := leftSpan.2 varies
    linarith
  · have := rightSpan.2 varies
    linarith

theorem shortcut?_comm (commutes : op.isCommutative = true) (left : f.Normal) (right : g.Normal)
    (inner : ¬(f.edge.isConstant = true ∧ g.edge.isConstant = true)) :
    shortcut? op f.edge g.edge = shortcut? op g.edge f.edge := by
  by_cases same : f.edge.key = g.edge.key
  · rw [Exact.edge_eq_of_key_eq same]
  have differ : (f.edge.key == g.edge.key) = false := beq_eq_false_iff_ne.mpr same
  have differ' : (g.edge.key == f.edge.key) = false := beq_eq_false_iff_ne.mpr (Ne.symm same)
  have apart := not_apart_both left right inner
  have varies (constant : f.edge.isConstant = true) : ¬g.edge.isConstant = true :=
    fun other => inner ⟨constant, other⟩
  cases op with
  | sum =>
    by_cases constant : f.edge.isConstant = true
    · simp [shortcut?, constant, varies constant]
    · simp [shortcut?, differ, differ', constant]
  | product =>
    by_cases constant : f.edge.isConstant = true
    · simp [shortcut?, constant, varies constant]
    · simp [shortcut?, constant]
  | min | max =>
    by_cases below : f.edge.greatest ≤ g.edge.least
    · simp [shortcut?, differ, differ', below, apart below]
    · simp [shortcut?, differ, differ', below]
  | difference => cases commutes
  | divide => cases commutes

/-- The keys of edges are in a total order, so two operands have one order. -/
theorem ordered_comm (commutes : op.isCommutative = true) (f g : Edge Rat) :
    ordered op f g = ordered op g f := by
  rw [ordered, ordered]
  by_cases before : g.key < f.key
  · rw [if_pos ⟨commutes, before⟩, if_neg fun both => List.lt_asymm before both.2]
  · rw [if_neg fun both => before both.2]
    by_cases after : f.key < g.key
    · rw [if_pos ⟨commutes, after⟩]
    · rw [if_neg fun both => after both.2,
        Exact.edge_eq_of_key_eq (List.le_antisymm (List.not_lt.mp before) (List.not_lt.mp after))]

theorem applyStep_comm (commutes : op.isCommutative = true) (left : f.Normal) (right : g.Normal) :
    applyStep below op f.edge g.edge = applyStep below op g.edge f.edge := by
  rw [applyStep, applyStep]
  by_cases constants : f.edge.isConstant = true ∧ g.edge.isConstant = true
  · rw [if_pos constants, if_pos constants.symm, Exact.compute_comm commutes]
  · rw [if_neg constants, if_neg fun both => constants both.symm,
      shortcut?_comm commutes left right constants, ordered_comm commutes]

theorem applyLevels_comm (commutes : op.isCommutative = true) (left : f.Normal)
    (right : g.Normal) (levels : Nat) :
    applyLevels op levels f.edge g.edge = applyLevels op levels g.edge f.edge := by
  cases levels with
  | zero => rfl
  | succ levels => exact applyStep_comm commutes left right

/-! ### Combinations asked for again -/

variable {f g : Root} {left right : Diagram Rat}

theorem apply_run (leftShown : s.RootShows f left) (rightShown : s.RootShows g right)
    (op : Operator) :
    apply f g op s = (applyEdge op left.edge right.edge >>= intern : StoreM Rat Rat Root) s := by
  rw [apply, StoreM.bind_of_ok (StoreM.inspect_of_ok leftShown.edge_eq),
    StoreM.bind_of_ok (StoreM.inspect_of_ok rightShown.edge_eq)]

theorem apply_comm {noTolerance : config.tolerance = 0}
    (sound : s.Sound (Reading.exact noTolerance)) (commutes : op.isCommutative = true)
    (leftShown : s.RootShows f left) (rightShown : s.RootShows g right) :
    apply f g op s = apply g f op s := by
  have swapped : applyEdge op left.edge right.edge = applyEdge op right.edge left.edge :=
    applyLevels_comm commutes (sound.keeps leftShown).holds (sound.keeps rightShown).holds
      levelCount
  rw [apply_run leftShown rightShown, apply_run rightShown leftShown, swapped]

theorem intern_again {s' s₁ : Store Rat Rat} {e : Edge Rat} {h : Root}
    (indexed : s'.roots.Indexed config.tolerance)
    (matching : ∀ e : Edge Rat, Canonical.matching config.tolerance e e = true)
    (run : intern e s' = .ok h s₁) (hits : Nat) :
    intern e (s₁.afterHits hits) = .ok h (s₁.afterHits hits) := by
  let stored := e.round s'.config.precision
  let roots := (s'.roots.put stored).2
  have found : roots.find? stored = some (s'.roots.put stored).1 :=
    UniqueTable.find?_put_self indexed.sound indexed.linked (indexed.tolerance_eq ▸ matching stored)
  have put : roots.put stored = ((s'.roots.put stored).1, roots) := by
    rw [UniqueTable.put, found]
  have first : intern e s' = .ok ⟨(s'.roots.put stored).1⟩ { s' with roots } := rfl
  rw [first] at run
  cases run
  show EStateM.Result.ok (Root.mk (roots.put stored).1)
    { ({ s' with roots } : Store Rat Rat).afterHits hits with roots := (roots.put stored).2 } = _
  rw [put]
  rfl

/-- On every run, a combination of live roots that was computed is answered with the same root when
it is asked for again, in either order of the operands if the operator commutes. The second time no
node, root or result is added and no look-up misses: at most one look-up finds the result. -/
theorem apply_again (noTolerance : config.tolerance = 0) (reachable : Reachable config s)
    (leftLive : s.roots.isOccupied f.index = true)
    (rightLive : s.roots.isOccupied g.index = true) (op : Operator) :
    ∃ h s₁, apply f g op s = .ok h s₁ ∧
      (∃ hits ≤ 1, apply f g op s₁ = .ok h (s₁.afterHits hits)) ∧
      (op.isCommutative = true →
        ∃ hits ≤ 1, apply g f op s₁ = .ok h (s₁.afterHits hits)) := by
  have sound : s.Sound (Reading.exact noTolerance) := reachable.sound
  have matching := matching_self noTolerance
  obtain ⟨left, leftShown, keepsLeft⟩ := sound.rootShows leftLive
  obtain ⟨right, rightShown, keepsRight⟩ := sound.rootShows rightLive
  obtain ⟨d, s', combined, grows, sound', keeps, -⟩ := applyEdge_spec op sound keepsLeft keepsRight
  obtain ⟨h, stored, s₁, interned, grows', sound₁, -⟩ := intern_spec sound' keeps
  have leftShown₁ := (grows.trans grows').rootShows leftShown
  have rightShown₁ := (grows.trans grows').rootShows rightShown
  have indexed : s'.roots.Indexed config.tolerance :=
    grows.rootTable.indexed matching.2 (reachable.indexed matching.1 matching.2).roots
  have results : s₁.applied.entries = s'.applied.entries := by
    cases interned
    rfl
  obtain ⟨hits, few, again⟩ :=
    applyLevels_again combined grows.config (grows.trans grows').config results
  have repeated : apply f g op s₁ = .ok h (s₁.afterHits hits) := by
    rw [apply_run leftShown₁ rightShown₁, applyEdge, StoreM.bind_of_ok again,
      intern_again indexed matching.2 interned]
  refine ⟨h, s₁, ?_, ⟨hits, few, repeated⟩, fun commutes => ⟨hits, few, ?_⟩⟩
  · rw [apply_run leftShown rightShown, StoreM.bind_of_ok combined, interned]
  · rw [← apply_comm sound₁ commutes leftShown₁ rightShown₁, repeated]

theorem apply_again_tests :
    Reachable .exact exactTests ∧ exactTests.roots.isOccupied 1 = true ∧
      exactTests.roots.isOccupied 2 = true ∧
      ∃ h s₁, apply ⟨1⟩ ⟨2⟩ .product exactTests = .ok h s₁ ∧
        (∃ hits ≤ 1, apply ⟨1⟩ ⟨2⟩ .product s₁ = .ok h (s₁.afterHits hits)) ∧
        (Operator.isCommutative .product = true →
          ∃ hits ≤ 1, apply ⟨2⟩ ⟨1⟩ .product s₁ = .ok h (s₁.afterHits hits)) := by
  have leftLive : exactTests.roots.isOccupied 1 = true := by decide +kernel
  have rightLive : exactTests.roots.isOccupied 2 = true := by decide +kernel
  exact ⟨reachable_exactTests, leftLive, rightLive,
    apply_again rfl reachable_exactTests leftLive rightLive .product⟩

end Exact

end Store

end BayesDiagram
