import BayesDiagram.Proofs.Diagram.Runs

/-! What no step can break. A property of stores that survives a put, a flush and any change of
what is memoized or pinned is kept by every step on a store, whatever roots, edges and bits it is
given and whether it answers or fails. -/
namespace BayesDiagram

def endState {ε S α : Type} : EStateM.Result ε S α → S
  | .ok _ s => s
  | .error _ s => s

def Preserves {ε S α : Type} (P : S → Prop) (step : EStateM ε S α) : Prop :=
  ∀ s, P s → P (endState (step s))

namespace Preserves

variable {ε S α β : Type} {P : S → Prop} {step : EStateM ε S α}

theorem of_ok {s s' : S} {answer : α} (preserves : Preserves P step) (holds : P s)
    (run : step s = .ok answer s') : P s' := by
  have held := preserves s holds
  rwa [run] at held

theorem pure (answer : α) : Preserves P (pure answer : EStateM ε S α) := fun _ holds => holds

theorem throw (failure : ε) : Preserves P (throw failure : EStateM ε S α) := fun _ holds => holds

theorem get : Preserves P (get : EStateM ε S S) := fun _ holds => holds

theorem bind {next : α → EStateM ε S β} (first : Preserves P step)
    (follows : ∀ answer, Preserves P (next answer)) : Preserves P (step >>= next) := by
  intro s holds
  have held := first s holds
  show P (endState (EStateM.bind step next s))
  unfold EStateM.bind
  cases run : step s with
  | ok answer s' =>
    rw [run] at held
    exact follows answer s' held
  | error failure s' =>
    rw [run] at held
    exact held

theorem map (answer : α → β) (preserves : Preserves P step) : Preserves P (answer <$> step) := by
  rw [map_eq_pure_bind]
  exact .bind preserves fun _ => .pure _

theorem ite {condition : Prop} [Decidable condition] {other : EStateM ε S α}
    (here : Preserves P step) (there : Preserves P other) :
    Preserves P (if condition then step else other) := by
  split
  · exact here
  · exact there

theorem foldlM {next : β → α → EStateM ε S β} {items : List α}
    (each : ∀ result item, Preserves P (next result item)) (start : β) :
    Preserves P (items.foldlM next start) := by
  induction items generalizing start with
  | nil => exact .pure start
  | cons item items ih =>
    rw [List.foldlM_cons]
    exact .bind (each start item) ih

theorem forM {next : α → EStateM ε S PUnit} {items : List α}
    (each : ∀ item, Preserves P (next item)) : Preserves P (items.forM next) := by
  induction items with
  | nil => exact .pure _
  | cons item items ih => exact .bind (each item) fun _ => ih

end Preserves

namespace Store

variable {σ κ : Type} [Scalar σ] [Coefficient σ κ] {P : Store σ κ → Prop}

/-- A property that no write to a store breaks. All steps are made of puts, of drops and of changes
to what is memoized and pinned. -/
structure Stable (P : Store σ κ → Prop) : Prop where
  node (s : Store σ κ) (node : Node κ) : P s → P { s with nodes := (s.nodes.put node).2 }
  root (s : Store σ κ) (e : Edge κ) : P s → P { s with roots := (s.roots.put e).2 }
  rest (s : Store σ κ) (applied : ComputedTable ApplyKey (Edge κ))
    (restricted : ComputedTable RestrictKey (Edge κ)) (pins : Std.TreeMap Nat Nat) :
    P s → P { s with applied, restricted, pins }
  drop (s : Store σ κ) (alive : List NodeId) : P s → P (s.drop alive)

omit [Scalar σ] [Coefficient σ κ] in
theorem inspect_preserves {α : Type} (read : Store σ κ → Except Fault α) :
    Preserves P (StoreM.inspect read) := by
  intro s holds
  rw [StoreM.inspect]
  cases read s <;> exact holds

omit [Scalar σ] in
theorem roundEdge_preserves (e : Edge κ) : Preserves P (roundEdge e) :=
  .bind .get fun _ => .pure _

namespace Stable

variable (stable : Stable P)

include stable

omit [Scalar σ] in
theorem putNode (node : Node κ) : Preserves P (putNode node) := fun s => stable.node s node

omit [Scalar σ] in
theorem intern (e : Edge κ) : Preserves P (intern e) :=
  .bind (roundEdge_preserves e) fun e s => stable.root s e

theorem makeNode (bit : Bit) (low high : Edge κ) : Preserves P (makeNode bit low high) := by
  refine .bind (inspect_preserves _) fun lowBit => .ite ?_ (.throw _)
  refine .bind (inspect_preserves _) fun highBit => .ite ?_ (.throw _)
  refine .bind .get fun s => ?_
  split
  · exact .pure _
  · exact .bind (stable.putNode _) fun id => roundEdge_preserves _

/-! ### Operations -/

section Recursion

variable {below : Edge κ → Edge κ → StoreM σ κ (Edge κ)}

theorem branchApply (under : ∀ f g, Preserves P (below f g)) (op : Operator) (f g : Edge κ) :
    Preserves P (branchApply below op f g) := by
  refine .bind (fun s => stable.rest s _ s.restricted s.pins) fun found => ?_
  split
  · exact .pure _
  · refine .bind (inspect_preserves _) fun bit => .bind (inspect_preserves _) fun ⟨_, _⟩ => ?_
    refine .bind (inspect_preserves _) fun ⟨_, _⟩ => .bind (under _ _) fun low => ?_
    refine .bind (under _ _) fun high => .bind (stable.makeNode bit low high) fun result => ?_
    exact .bind (fun s => stable.rest s _ s.restricted s.pins) fun _ => .pure _

theorem applyStep (under : ∀ f g, Preserves P (below f g)) (op : Operator) (f g : Edge κ) :
    Preserves P (applyStep below op f g) := by
  refine .ite (roundEdge_preserves _) ?_
  split
  · exact roundEdge_preserves _
  · refine .bind .get fun s => ?_
    split
    · exact .bind (stable.branchApply under op _ _) fun _ => roundEdge_preserves _
    · exact stable.branchApply under op _ _

theorem applyEdge (op : Operator) (f g : Edge κ) : Preserves P (applyEdge op f g) := by
  -- by induction on the levels, for all operands
  suffices ∀ levels f g, Preserves P (applyLevels op levels f g) from this levelCount f g
  intro levels
  induction levels with
  | zero => exact fun f g => .throw _
  | succ levels ih => exact stable.applyStep ih op

end Recursion

theorem apply (f g : Root) (op : Operator) : Preserves P (apply f g op) :=
  .bind (inspect_preserves _) fun f => .bind (inspect_preserves _) fun g =>
    .bind (stable.applyEdge op f g) stable.intern

theorem branchRestrict {below : Edge κ → StoreM σ κ (Edge κ)}
    (under : ∀ e, Preserves P (below e)) (id : NodeId) (node : Node κ) (bit : Bit)
    (value : Bool) : Preserves P (branchRestrict below id node bit value) := by
  refine .bind (fun s => stable.rest s s.applied _ s.pins) fun found => ?_
  split
  · exact .pure _
  · refine .bind (under _) fun low => .bind (under _) fun high => ?_
    refine .bind (stable.makeNode _ low high) fun result => ?_
    exact .bind (fun s => stable.rest s s.applied _ s.pins) fun _ => .pure _

theorem restrictEdge (e : Edge κ) (bit : Bit) (value : Bool) :
    Preserves P (restrictEdge e bit value) := by
  suffices ∀ levels e, Preserves P (restrictLevels bit value levels e) from this levelCount e
  intro levels
  induction levels with
  | zero => exact fun e => .throw _
  | succ levels ih =>
    refine fun e => .ite (.pure e) (.bind (inspect_preserves _) fun node => ?_)
    refine .ite (.pure e) (.ite (roundEdge_preserves _) ?_)
    exact .bind (stable.branchRestrict ih _ node bit value) fun _ => roundEdge_preserves _

theorem restrict (f : Root) (bit : Bit) (value : Bool) : Preserves P (restrict f bit value) :=
  .bind (inspect_preserves _) fun e => .bind (stable.restrictEdge e bit value) stable.intern

theorem marginalize (f : Root) (bit : Bit) (op : Operator) :
    Preserves P (marginalize f bit op) :=
  .bind (inspect_preserves _) fun e => .bind (stable.restrictEdge e bit false) fun low =>
    .bind (stable.restrictEdge e bit true) fun high =>
      .bind (stable.applyEdge op low high) stable.intern

/-! ### Building -/

omit [Scalar σ] in
theorem constant (value : σ) : Preserves P (constant value) := stable.intern _

theorem test (bit : Bit) (low high : σ) : Preserves P (test bit low high) :=
  .bind (stable.makeNode bit _ _) stable.intern

theorem multiply (f : Root) (scalar : σ) : Preserves P (multiply f scalar) :=
  .bind (stable.constant scalar) fun k => stable.apply f k .product

theorem branchEdge (bit : Bit) (low high : Edge κ) : Preserves P (branchEdge bit low high) := by
  refine .bind (inspect_preserves _) fun lowBit => .ite ?_ (.throw _)
  exact .bind (inspect_preserves _) fun highBit => .ite (stable.makeNode bit low high) (.throw _)

theorem branch (bit : Bit) (low high : Root) : Preserves P (branch bit low high) :=
  .bind (inspect_preserves _) fun low => .bind (inspect_preserves _) fun high =>
    .bind (stable.branchEdge bit low high) stable.intern

theorem ofOrderedTree (tree : DecisionTree σ) : Preserves P (ofOrderedTree tree) := by
  refine .bind ?_ stable.intern
  induction tree with
  | leaf value => exact roundEdge_preserves _
  | branch bit low high ihLow ihHigh =>
    exact .bind ihLow fun low => .bind ihHigh fun high => stable.branchEdge bit low high

theorem ofUnorderedTree (tree : DecisionTree σ) : Preserves P (ofUnorderedTree tree) := by
  refine .bind ?_ stable.intern
  induction tree with
  | leaf value => exact roundEdge_preserves _
  | branch bit low high ihLow ihHigh =>
    refine .bind ihLow fun low => .bind ihHigh fun high => ?_
    refine .bind (stable.makeNode bit _ _) fun isLow => .bind (stable.makeNode bit _ _) ?_
    refine fun isHigh => .bind (stable.applyEdge .product isLow low) fun low => ?_
    exact .bind (stable.applyEdge .product isHigh high) fun high => stable.applyEdge .sum low high

/-! ### Pins and flushes -/

omit [Scalar σ] in
theorem pin (f : Root) : Preserves P (pin f) := fun s => stable.rest s s.applied s.restricted _

omit [Scalar σ] in
theorem unpin (f : Root) : Preserves P (unpin f) := by
  refine .bind .get fun s => ?_
  split
  · exact .throw _
  · exact fun s => stable.rest s s.applied s.restricted _

omit [Scalar σ] in
theorem collectGarbage : Preserves P collectGarbage :=
  .bind (fun s => stable.rest s _ _ s.pins) fun _ => .bind (inspect_preserves _) fun alive s =>
    stable.drop s alive

theorem flushUnderPressure : Preserves P flushUnderPressure :=
  .bind .get fun _ => .ite (.bind stable.collectGarbage fun _ => .pure true) (.pure false)

theorem perform (request : Request σ) : Preserves P request.perform := by
  cases request with
  | constant value => exact (stable.constant value).map some
  | test bit low high => exact (stable.test bit low high).map some
  | branch bit low high => exact (stable.branch bit low high).map some
  | apply f g op => exact (stable.apply f g op).map some
  | multiply f scalar => exact (stable.multiply f scalar).map some
  | restrict f bit value => exact (stable.restrict f bit value).map some
  | marginalize f bit op => exact (stable.marginalize f bit op).map some
  | ofOrderedTree tree => exact (stable.ofOrderedTree tree).map some
  | ofUnorderedTree tree => exact (stable.ofUnorderedTree tree).map some
  | pin f => exact (stable.pin f).map _
  | unpin f => exact (stable.unpin f).map _
  | collectGarbage => exact stable.collectGarbage.map _
  | flushUnderPressure => exact stable.flushUnderPressure.map _

theorem after {s : Store σ κ} (holds : P s) (request : Request σ) : P (request.after s) := by
  have same : request.after s = endState (request.perform s) := by
    rw [Request.after]
    cases request.perform s <;> rfl
  rw [same]
  exact stable.perform request s holds

end Stable

/-! ### Tables without repetitions -/

variable {config : StoreConfig σ}

omit [Scalar σ] in
theorem stable_indexed
    (matchingNode : ∀ node : Node κ, Canonical.matching config.tolerance node node = true)
    (matchingEdge : ∀ e : Edge κ, Canonical.matching config.tolerance e e = true) :
    Stable fun s : Store σ κ => s.Indexed config where
  node _ node indexed := ⟨indexed.nodes.put (matchingNode node), indexed.roots⟩
  root _ e indexed := ⟨indexed.nodes, indexed.roots.put (matchingEdge e)⟩
  rest _ _ _ _ indexed := ⟨indexed.nodes, indexed.roots⟩
  drop _ _ indexed := ⟨indexed.nodes.retain _, indexed.roots.retain _⟩

end Store

end BayesDiagram
