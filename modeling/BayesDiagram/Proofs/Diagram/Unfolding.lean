import BayesDiagram.Diagram.Inspect
import BayesDiagram.Proofs.Diagram.Cells
import Mathlib.Data.Finset.Basic

/-! Diagrams unfolded into trees. A tree records, beside the tests along its paths, the cells it
was read from, so it is determined by its edge; it stays the same while the cells that it shows
keep their nodes, whatever else the store does. -/
namespace BayesDiagram

/-- A bit that diagrams may test: neither the terminal's nor one at the terminal's level. -/
structure Bit.Proper (bit : Bit) : Prop where
  nonzero : bit.id ≠ 0
  lt_maxId : bit.id < maxId

namespace Bit.Proper

variable {bit other : Bit}

theorem level_eq (proper : bit.Proper) : bit.level = bit.id :=
  level_of_ne_zero proper.nonzero

theorem level_lt (proper : bit.Proper) : bit.level < maxId := by
  rw [proper.level_eq]
  exact proper.lt_maxId

theorem isTerminal_eq (proper : bit.Proper) : bit.isTerminal = false :=
  beq_eq_false_iff_ne.mpr proper.nonzero

theorem eq_of_level_eq (proper : bit.Proper) (other_proper : other.Proper)
    (equal : bit.level = other.level) : bit = other := by
  rw [proper.level_eq, other_proper.level_eq] at equal
  cases bit
  cases other
  congr

end Bit.Proper

/-- The tree below an edge. The node of a test stands in the cell numbered `place + 1`. -/
inductive Diagram (κ : Type) where
  | constant (value : κ)
  | test (place : Nat) (offset scale : κ) (bit : Bit) (low high : Diagram κ)

namespace Diagram

variable {σ κ : Type}

def level : Diagram κ → Nat
  | constant _ => Bit.maxId
  | test _ _ _ bit _ _ => bit.level

def bits : Diagram κ → Finset Bit
  | constant _ => ∅
  | test _ _ _ bit low high => insert bit (low.bits ∪ high.bits)

def Ordered : Diagram κ → Prop
  | constant _ => True
  | test _ _ _ bit low high =>
    bit.Proper ∧ bit.level < low.level ∧ bit.level < high.level ∧ low.Ordered ∧ high.Ordered

def reshape (offset scale : κ) : Diagram κ → Diagram κ
  | constant _ => constant offset
  | test place _ _ bit low high => test place offset scale bit low high

@[simp] theorem level_reshape (d : Diagram κ) (offset scale : κ) :
    (d.reshape offset scale).level = d.level := by
  cases d <;> rfl

@[simp] theorem bits_reshape (d : Diagram κ) (offset scale : κ) :
    (d.reshape offset scale).bits = d.bits := by
  cases d <;> rfl

@[simp] theorem ordered_reshape (d : Diagram κ) (offset scale : κ) :
    (d.reshape offset scale).Ordered ↔ d.Ordered := by
  cases d <;> rfl

@[simp] theorem reshape_reshape (d : Diagram κ) (offset scale offset' scale' : κ) :
    (d.reshape offset scale).reshape offset' scale' = d.reshape offset' scale' := by
  cases d <;> rfl

theorem mem_bits_test {place : Nat} {offset scale : κ} {bit other : Bit} {low high : Diagram κ} :
    other ∈ (test place offset scale bit low high).bits ↔
      other = bit ∨ other ∈ low.bits ∨ other ∈ high.bits := by
  rw [bits, Finset.mem_insert, Finset.mem_union]

theorem forall_mem_bits_test {place : Nat} {offset scale : κ} {bit : Bit} {low high : Diagram κ}
    {p : Bit → Prop} : (∀ other ∈ (test place offset scale bit low high).bits, p other) ↔
      p bit ∧ (∀ other ∈ low.bits, p other) ∧ ∀ other ∈ high.bits, p other := by
  simp only [mem_bits_test, or_imp, forall_and, forall_eq]

/-! ### Levels -/

theorem lt_level {d : Diagram κ} {level : Nat} (bound : level < Bit.maxId)
    (above : ∀ bit ∈ d.bits, level < bit.level) : level < d.level := by
  cases d with
  | constant value => exact bound
  | test place offset scale bit low high => exact above bit (Finset.mem_insert_self _ _)

theorem Ordered.level_le {d : Diagram κ} (ordered : d.Ordered) {bit : Bit} (mem : bit ∈ d.bits) :
    d.level ≤ bit.level := by
  induction d with
  | constant value => cases mem
  | test place offset scale top low high ihLow ihHigh =>
    obtain ⟨proper, aboveLow, aboveHigh, lowOrdered, highOrdered⟩ := ordered
    rcases mem_bits_test.mp mem with rfl | memLow | memHigh
    · exact Nat.le_refl _
    · exact Nat.le_of_lt (Nat.lt_of_lt_of_le aboveLow (ihLow lowOrdered memLow))
    · exact Nat.le_of_lt (Nat.lt_of_lt_of_le aboveHigh (ihHigh highOrdered memHigh))

theorem Ordered.proper {d : Diagram κ} (ordered : d.Ordered) {bit : Bit} (mem : bit ∈ d.bits) :
    bit.Proper := by
  induction d with
  | constant value => cases mem
  | test place offset scale top low high ihLow ihHigh =>
    obtain ⟨proper, aboveLow, aboveHigh, lowOrdered, highOrdered⟩ := ordered
    rcases mem_bits_test.mp mem with rfl | memLow | memHigh
    · exact proper
    · exact ihLow lowOrdered memLow
    · exact ihHigh highOrdered memHigh

theorem Ordered.notMem_bits {d : Diagram κ} (ordered : d.Ordered) {bit : Bit}
    (above : bit.level < d.level) : bit ∉ d.bits :=
  fun mem => Nat.not_lt.mpr (ordered.level_le mem) above

theorem Ordered.notMem_bits_of_id_lt {d : Diagram κ} (ordered : d.Ordered) {bit : Bit}
    (above : bit.id < d.level) : bit ∉ d.bits := fun mem => by
  refine Nat.not_lt.mpr (ordered.level_le mem) ?_
  rwa [(ordered.proper mem).level_eq]

theorem Ordered.id_lt {d : Diagram κ} (ordered : d.Ordered) {bit later : Bit}
    (proper : bit.Proper) (above : bit.level < d.level) (mem : later ∈ d.bits) :
    bit.id < later.id := by
  rw [← proper.level_eq, ← (ordered.proper mem).level_eq]
  exact Nat.lt_of_lt_of_le above (ordered.level_le mem)

theorem Ordered.level_le_maxId {d : Diagram κ} (ordered : d.Ordered) : d.level ≤ Bit.maxId := by
  cases d with
  | constant value => exact Nat.le_refl _
  | test place offset scale bit low high => exact Nat.le_of_lt ordered.1.level_lt

/-! ### Edges -/

variable [Coefficient σ κ]

def edge : Diagram κ → Edge κ
  | constant value => .constant value
  | test place offset scale _ _ _ => ⟨offset, scale, ⟨place + 1⟩⟩

@[simp] theorem edge_constant (value : κ) : (constant value).edge = .constant value := rfl

@[simp] theorem edge_test (place : Nat) (offset scale : κ) (bit : Bit) (low high : Diagram κ) :
    (test place offset scale bit low high).edge = ⟨offset, scale, ⟨place + 1⟩⟩ := rfl

theorem isConstant_edge (d : Diagram κ) :
    d.edge.isConstant = true ↔ ∃ value, d = constant value := by
  cases d with
  | constant value => exact ⟨fun _ => ⟨value, rfl⟩, fun _ => rfl⟩
  | test place offset scale bit low high =>
    refine ⟨fun terminal => ?_, fun ⟨value, equal⟩ => ?_⟩
    · cases terminal
    · cases equal

theorem reshape_self (d : Diagram κ) : d.reshape d.edge.offset d.edge.scale = d := by
  cases d <;> rfl

/-- Trees of one node, under two transforms. -/
def SharesNode (d d' : Diagram κ) : Prop :=
  d' = d.reshape d'.edge.offset d'.edge.scale

namespace SharesNode

variable {d d' d'' : Diagram κ}

theorem reshape (d : Diagram κ) (offset scale : κ) : d.SharesNode (d.reshape offset scale) := by
  cases d <;> rfl

theorem refl (d : Diagram κ) : d.SharesNode d :=
  d.reshape_self.symm

theorem symm (shares : d.SharesNode d') : d'.SharesNode d := by
  rw [SharesNode] at shares ⊢
  rw [shares, reshape_reshape, reshape_self]

theorem trans (first : d.SharesNode d') (second : d'.SharesNode d'') : d.SharesNode d'' := by
  rw [SharesNode] at first second ⊢
  rw [first, reshape_reshape] at second
  exact second

theorem eq_of_edge_eq (shares : d.SharesNode d') (equal : d'.edge = d.edge) : d' = d := by
  rw [SharesNode, equal, reshape_self] at shares
  exact shares

theorem bits_eq (shares : d.SharesNode d') : d'.bits = d.bits := by
  rw [shares, bits_reshape]

theorem level_eq (shares : d.SharesNode d') : d'.level = d.level := by
  rw [shares, level_reshape]

theorem ordered_iff (shares : d.SharesNode d') : d'.Ordered ↔ d.Ordered := by
  rw [shares, ordered_reshape]

end SharesNode

def rescale (d : Diagram κ) (shift factor : κ) : Diagram κ :=
  d.reshape (shift + factor * d.edge.offset) (factor * d.edge.scale)

def round (precision : Precision) (d : Diagram κ) : Diagram κ :=
  d.reshape (Coefficient.round precision d.edge.offset) (Coefficient.round precision d.edge.scale)

def under (outer : Edge κ) (inner : Diagram κ) : Diagram κ :=
  inner.reshape (outer.offset + outer.scale * inner.edge.offset) (outer.scale * inner.edge.scale)

theorem edge_rescale (d : Diagram κ) (shift factor : κ) :
    (d.rescale shift factor).edge = d.edge.rescale shift factor := by
  cases d <;> rfl

theorem edge_round (precision : Precision) (d : Diagram κ) :
    (d.round precision).edge = d.edge.round precision := by
  cases d <;> rfl

theorem edge_under (outer : Edge κ) (inner : Diagram κ) :
    (inner.under outer).edge = outer.compose inner.edge := by
  cases inner <;> rfl

@[simp] theorem bits_rescale (d : Diagram κ) (shift factor : κ) :
    (d.rescale shift factor).bits = d.bits := bits_reshape ..

@[simp] theorem bits_round (precision : Precision) (d : Diagram κ) :
    (d.round precision).bits = d.bits := bits_reshape ..

@[simp] theorem bits_under (outer : Edge κ) (inner : Diagram κ) :
    (inner.under outer).bits = inner.bits := bits_reshape ..

@[simp] theorem ordered_round (precision : Precision) (d : Diagram κ) :
    (d.round precision).Ordered ↔ d.Ordered := ordered_reshape ..

@[simp] theorem ordered_under (outer : Edge κ) (inner : Diagram κ) :
    (inner.under outer).Ordered ↔ inner.Ordered := ordered_reshape ..

def cofactor (precision : Precision) (bit : Bit) (value : Bool) : Diagram κ → Diagram κ
  | constant v => constant v
  | test place offset scale top low high =>
    if top = bit then
      ((if value then high else low).under ⟨offset, scale, ⟨place + 1⟩⟩).round precision
    else test place offset scale top low high

theorem cofactor_ordered {d : Diagram κ} (ordered : d.Ordered) (precision : Precision) (bit : Bit)
    (value : Bool) : (d.cofactor precision bit value).Ordered := by
  cases d with
  | constant v => trivial
  | test place offset scale top low high =>
    rw [cofactor]
    split
    · rw [ordered_round, ordered_under]
      cases value
      · exact ordered.2.2.2.1
      · exact ordered.2.2.2.2
    · exact ordered

theorem cofactor_bits_subset (d : Diagram κ) (precision : Precision) (bit : Bit) (value : Bool) :
    (d.cofactor precision bit value).bits ⊆ d.bits := by
  cases d with
  | constant v => exact Finset.Subset.refl _
  | test place offset scale top low high =>
    rw [cofactor]
    split
    · rw [bits_round, bits_under, bits]
      cases value
      · exact Finset.subset_union_left.trans (Finset.subset_insert _ _)
      · exact Finset.subset_union_right.trans (Finset.subset_insert _ _)
    · exact Finset.Subset.refl _

theorem lt_level_cofactor {d : Diagram κ} (ordered : d.Ordered) (precision : Precision) {bit : Bit}
    (proper : bit.Proper) (topmost : bit.level ≤ d.level) (value : Bool) :
    bit.level < (d.cofactor precision bit value).level := by
  cases d with
  | constant v => exact proper.level_lt
  | test place offset scale top low high =>
    obtain ⟨topProper, aboveLow, aboveHigh, -, -⟩ := ordered
    rw [cofactor]
    split
    · next here =>
      subst here
      cases value
      · exact Nat.lt_of_lt_of_eq aboveLow (by simp [round, under])
      · exact Nat.lt_of_lt_of_eq aboveHigh (by simp [round, under])
    · next elsewhere =>
      refine Nat.lt_of_le_of_ne topmost fun equal => elsewhere ?_
      exact (proper.eq_of_level_eq topProper equal).symm

/-! ### Values along a path -/

def evaluate (assignment : Assignment) : (sum factor : κ) → Diagram κ → Option κ
  | sum, factor, constant value => some (sum + factor * value)
  | sum, factor, test _ offset scale bit low high =>
    match assignment bit with
    | none => none
    | some true => high.evaluate assignment (sum + factor * offset) (factor * scale)
    | some false => low.evaluate assignment (sum + factor * offset) (factor * scale)

theorem evaluate_isSome {d : Diagram κ} {assignment : Assignment}
    (assigned : ∀ bit ∈ d.bits, (assignment bit).isSome) (sum factor : κ) :
    (d.evaluate assignment sum factor).isSome := by
  induction d generalizing sum factor with
  | constant value => rfl
  | test place offset scale bit low high ihLow ihHigh =>
    obtain ⟨here, assignedLow, assignedHigh⟩ := forall_mem_bits_test.mp assigned
    obtain ⟨value, found⟩ := Option.isSome_iff_exists.mp here
    simp only [evaluate, found]
    cases value
    · exact ihLow assignedLow _ _
    · exact ihHigh assignedHigh _ _

end Diagram

namespace UniqueTable

variable {σ κ : Type} [Coefficient σ κ] {t t' : UniqueTable σ (Node κ)} {d d' : Diagram κ}

def Shows (t : UniqueTable σ (Node κ)) : Diagram κ → Prop
  | .constant _ => True
  | .test place _ _ bit low high =>
    t.cell? (place + 1) = some ⟨bit, low.edge, high.edge⟩ ∧ t.Shows low ∧ t.Shows high

@[simp] theorem shows_reshape (offset scale : κ) :
    t.Shows (d.reshape offset scale) ↔ t.Shows d := by
  cases d <;> rfl

theorem Shows.mono (shown : t.Shows d)
    (kept : ∀ i node, t.cell? i = some node → t'.cell? i = some node) : t'.Shows d := by
  induction d with
  | constant value => trivial
  | test place offset scale bit low high ihLow ihHigh =>
    exact ⟨kept _ _ shown.1, ihLow shown.2.1, ihHigh shown.2.2⟩

theorem Shows.cofactor (shown : t.Shows d) (precision : Precision) (bit : Bit) (value : Bool) :
    t.Shows (d.cofactor precision bit value) := by
  cases d with
  | constant v => trivial
  | test place offset scale top low high =>
    rw [Diagram.cofactor]
    split
    · rw [Diagram.round, shows_reshape, Diagram.under, shows_reshape]
      cases value
      · exact shown.2.1
      · exact shown.2.2
    · exact shown

theorem Shows.of_sharesNode (shown : t.Shows d) (shares : d.SharesNode d') : t.Shows d' := by
  rw [shares]
  exact (shows_reshape _ _).mpr shown

theorem Shows.sharesNode (shown : t.Shows d) (shown' : t.Shows d')
    (equal : d'.edge.node = d.edge.node) : d.SharesNode d' := by
  induction d generalizing d' with
  | constant value =>
    cases d' with
    | constant value' => exact .reshape _ _ value'
    | test place offset scale bit low high => cases equal
  | test place offset scale bit low high ihLow ihHigh =>
    cases d' with
    | constant value' => cases equal
    | test place' offset' scale' bit' low' high' =>
      cases equal
      obtain ⟨cell, lowShown, highShown⟩ := shown
      obtain ⟨cell', lowShown', highShown'⟩ := shown'
      rw [cell, Option.some.injEq, Node.mk.injEq] at cell'
      obtain ⟨rfl, lowEdge, highEdge⟩ := cell'
      have lowEqual := ihLow lowShown lowShown' (by rw [lowEdge])
      have highEqual := ihHigh highShown highShown' (by rw [highEdge])
      rw [Diagram.SharesNode, ← lowEdge, Diagram.reshape_self] at lowEqual
      rw [Diagram.SharesNode, ← highEdge, Diagram.reshape_self] at highEqual
      rw [lowEqual, highEqual]
      exact .reshape _ _ _

theorem Shows.eq_of_edge_eq (shown : t.Shows d) (shown' : t.Shows d') (equal : d'.edge = d.edge) :
    d' = d :=
  (shown.sharesNode shown' (congrArg Edge.node equal)).eq_of_edge_eq equal

end UniqueTable

namespace Store

variable {σ κ : Type} [Coefficient σ κ] {s : Store σ κ} {d : Diagram κ}

theorem bitOf_edge (shown : s.nodes.Shows d) :
    ∃ bit, s.bitOf d.edge = .ok bit ∧ bit.level = d.level ∧
      (bit = .terminal ∨ bit ∈ d.bits) := by
  cases d with
  | constant value => exact ⟨.terminal, rfl, rfl, .inl rfl⟩
  | test place offset scale bit low high =>
    refine ⟨bit, ?_, rfl, .inr (Finset.mem_insert_self _ _)⟩
    have read := UniqueTable.value_of_cell? shown.1
    simp only [bitOf, node, Diagram.edge_test, Edge.isConstant, NodeId.isTerminal, read]
    rfl

omit [Coefficient σ κ] in
theorem node_of_cell? {id : NodeId} {node : Node κ}
    (stored : s.nodes.cell? id.index = some node) : s.node id = .ok node := by
  obtain ⟨index⟩ := id
  cases index with
  | zero => cases stored
  | succ place => exact UniqueTable.value_of_cell? stored

theorem node_of_shows {place : Nat} {offset scale : κ} {bit : Bit}
    {low high : Diagram κ} (shown : s.nodes.Shows (.test place offset scale bit low high)) :
    s.node ⟨place + 1⟩ = .ok ⟨bit, low.edge, high.edge⟩ :=
  UniqueTable.value_of_cell? shown.1

theorem cofactors_edge (shown : s.nodes.Shows d) (bit : Bit) :
    s.cofactors d.edge bit =
      .ok ((d.cofactor s.config.precision bit false).edge,
        (d.cofactor s.config.precision bit true).edge) := by
  cases d with
  | constant value => rfl
  | test place offset scale top low high =>
    have read := node_of_shows shown
    simp only [cofactors, Diagram.edge_test, Edge.isConstant, NodeId.isTerminal, read,
      Diagram.cofactor]
    split
    · cases ‹_›
    · simp only [bind, Except.bind, pure, Except.pure]
      split <;> simp [Diagram.edge_round, Diagram.edge_under]

theorem evaluateLevels_edge (shown : s.nodes.Shows d)
    (ordered : d.Ordered) (assignment : Assignment) {levels : Nat}
    (enough : Bit.maxId < levels + d.level) (sum factor : κ) :
    s.evaluateLevels assignment levels sum factor d.edge =
      .ok (d.evaluate assignment sum factor) := by
  induction d generalizing levels sum factor with
  | constant value =>
    cases levels with
    | zero => simp [Diagram.level] at enough
    | succ levels => rfl
  | test place offset scale bit low high ihLow ihHigh =>
    obtain ⟨proper, aboveLow, aboveHigh, lowOrdered, highOrdered⟩ := ordered
    have below := proper.level_lt
    cases levels with
    | zero =>
      simp only [Diagram.level] at enough
      omega
    | succ levels =>
      simp only [Diagram.level] at enough
      have read := node_of_shows shown
      simp only [evaluateLevels, Diagram.edge_test, Edge.isConstant, NodeId.isTerminal, read,
        Diagram.evaluate, bind, Except.bind]
      rcases assignment bit with _ | _ | _
      · rfl
      · exact ihLow shown.2.1 lowOrdered (by omega) _ _
      · exact ihHigh shown.2.2 highOrdered (by omega) _ _

def RootShows (s : Store σ κ) (f : Root) (d : Diagram κ) : Prop :=
  s.roots.cell? f.index = some d.edge ∧ s.nodes.Shows d

theorem RootShows.edge_eq {f : Root} (shown : s.RootShows f d) :
    s.edge f = .ok d.edge :=
  UniqueTable.value_of_cell? shown.1

theorem RootShows.unique {f : Root} {d' : Diagram κ} (shown : s.RootShows f d)
    (shown' : s.RootShows f d') : d' = d :=
  shown.2.eq_of_edge_eq shown'.2 (Option.some.inj (shown'.1.symm.trans shown.1))

theorem RootShows.evaluate_eq {f : Root} (shown : s.RootShows f d)
    (ordered : d.Ordered) (assignment : Assignment) :
    s.evaluate f assignment = .ok (d.evaluate assignment 0 1) := by
  simp only [evaluate, shown.edge_eq, bind, Except.bind]
  exact evaluateLevels_edge shown.2 ordered assignment (Nat.lt_add_right _ (Nat.lt_succ_self _)) 0 1

end Store

end BayesDiagram
