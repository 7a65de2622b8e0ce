import BayesDiagram.Diagram.Restrict
import BayesDiagram.Proofs.Diagram.Unfolding

/-! What a store keeps about its diagrams. A reading says which diagrams may stand in a store and
when one diagram is the test, the combination or the restriction of others; the store invariant
keeps it for nodes, roots and memoized results. Two readings matter: the plain one, which asks
nothing and leaves the shape of the diagrams, and the one over exact numbers, which is about their
functions. The operations are followed once, for every reading. -/
namespace BayesDiagram

/-- The conditions under which the operations of a store with this configuration keep a property
of its diagrams and the relations between their operands and results. -/
structure Reading (σ κ : Type) [Scalar σ] [Coefficient σ κ] (config : StoreConfig σ) where
  Holds : Diagram κ → Prop
  Decides : Bit → (low high result : Diagram κ) → Prop
  Combines : Operator → (f g result : Diagram κ) → Prop
  Fixes : Bit → Bool → (d result : Diagram κ) → Prop
  constant (value : κ) : Holds (.constant value)
  round {d : Diagram κ} : Holds d → Holds (d.round config.precision)
  branches {place : Nat} {offset scale : κ} {bit : Bit} {low high : Diagram κ} :
    Holds (.test place offset scale bit low high) → Holds low ∧ Holds high
  body {place : Nat} {offset scale : κ} {bit : Bit} {low high : Diagram κ} :
    Holds (.test place offset scale bit low high) → Holds (.test place 0 1 bit low high)
  cofactor {d : Diagram κ} (bit : Bit) (value : Bool) :
    Holds d → Holds (d.cofactor config.precision bit value)
  decides_edge {t : UniqueTable σ (Node κ)} {bit : Bit} {low high : Diagram κ}
    (result : Diagram κ) :
    t.Shows low → t.Shows high → Holds low → Holds high →
    NormalForm.ofTest config bit low.edge high.edge = .edge result.edge →
    (result = low ∨ ∃ value, result = .constant value) →
    Holds result ∧ Decides bit low high result
  /-- The node is a new one, or one that matches it. -/
  decides_node {bit : Bit} {low high low' high' : Diagram κ} {offset scale : κ} {node : Node κ}
    (place : Nat) :
    Holds low → Holds high →
    NormalForm.ofTest config bit low.edge high.edge = .node offset scale node →
    low.SharesNode low' → high.SharesNode high' →
    (node = ⟨bit, low'.edge, high'.edge⟩ ∨
      Canonical.matching config.tolerance node ⟨bit, low'.edge, high'.edge⟩ = true ∧
        Holds (.test place 0 1 bit low' high')) →
    let result := (Diagram.test place offset scale bit low' high').round config.precision
    Holds result ∧ Decides bit low high result
  combines_constant (op : Operator) (a b : κ) :
    Combines op (.constant a) (.constant b)
      (.constant (Coefficient.round config.precision (op.compute a b)))
  combines_shortcut {t : UniqueTable σ (Node κ)} {op : Operator} {f g result : Diagram κ} :
    t.Shows f → t.Shows g → t.Shows result → Holds f → Holds g →
    Store.shortcut? op f.edge g.edge = some result.edge →
    Holds (result.round config.precision) ∧ Combines op f g (result.round config.precision)
  combines_swap {op : Operator} {f g result : Diagram κ} :
    op.isCommutative = true → Combines op g f result → Combines op f g result
  combines_factored {op : Operator} {f g : Diagram κ} {left right : Edge κ} {shift factor : κ} :
    Holds f → Holds g →
    Store.factored? config.precision op f.edge g.edge = some ⟨left, right, shift, factor⟩ →
    Holds (f.reshape left.offset left.scale) ∧ Holds (g.reshape right.offset right.scale) ∧
    ∀ inner, Holds inner →
      Combines op (f.reshape left.offset left.scale) (g.reshape right.offset right.scale) inner →
      let result := (inner.rescale shift factor).round config.precision
      Holds result ∧ Combines op f g result
  combines_branches {op : Operator} {bit : Bit} {f g low high result : Diagram κ} :
    Combines op (f.cofactor config.precision bit false) (g.cofactor config.precision bit false)
      low →
    Combines op (f.cofactor config.precision bit true) (g.cofactor config.precision bit true)
      high →
    Decides bit low high result → Combines op f g result
  /-- A memoized result is shared by operands with the same keys. -/
  combines_key {op : Operator} {f g f' g' result : Diagram κ} :
    f.SharesNode f' → f'.edge.key = f.edge.key →
    g.SharesNode g' → g'.edge.key = g.edge.key →
    Combines op f g result → Combines op f' g' result
  fixes_absent {bit : Bit} {d : Diagram κ} (value : Bool) : bit ∉ d.bits → Fixes bit value d d
  fixes_top (place : Nat) (offset scale : κ) (bit : Bit) (low high : Diagram κ) (value : Bool) :
    let d : Diagram κ := .test place offset scale bit low high
    Fixes bit value d (d.cofactor config.precision bit value)
  fixes_branches {bit top : Bit} {value : Bool} {low high low' high' result : Diagram κ}
    (place : Nat) :
    top ≠ bit → Fixes bit value low low' → Fixes bit value high high' →
    Decides top low' high' result → Fixes bit value (.test place 0 1 top low high) result
  fixes_under {place : Nat} {offset scale : κ} {bit top : Bit} {value : Bool}
    {low high inner : Diagram κ} :
    Holds (.test place offset scale top low high) → Holds inner →
    Fixes bit value (.test place 0 1 top low high) inner →
    let result := (inner.under ⟨offset, scale, ⟨place + 1⟩⟩).round config.precision
    Holds result ∧ Fixes bit value (.test place offset scale top low high) result

variable {σ κ : Type} [Scalar σ] [Coefficient σ κ]

def Reading.plain (config : StoreConfig σ) : Reading σ κ config where
  Holds _ := True
  Decides _ _ _ _ := True
  Combines _ _ _ _ := True
  Fixes _ _ _ _ := True
  constant _ := trivial
  round _ := trivial
  branches _ := ⟨trivial, trivial⟩
  body _ := trivial
  cofactor _ _ _ := trivial
  decides_edge _ _ _ _ _ _ _ := ⟨trivial, trivial⟩
  decides_node _ _ _ _ _ _ _ := ⟨trivial, trivial⟩
  combines_constant _ _ _ := trivial
  combines_shortcut _ _ _ _ _ _ := ⟨trivial, trivial⟩
  combines_swap _ _ := trivial
  combines_factored _ _ _ := ⟨trivial, trivial, fun _ _ _ => ⟨trivial, trivial⟩⟩
  combines_branches _ _ _ := trivial
  combines_key _ _ _ _ _ := trivial
  fixes_absent _ _ := trivial
  fixes_top _ _ _ _ _ _ _ := trivial
  fixes_branches _ _ _ _ _ := trivial
  fixes_under _ _ _ := ⟨trivial, trivial⟩

namespace Reading

variable {config : StoreConfig σ} {R : Reading σ κ config} {t t' : UniqueTable σ (Node κ)}

structure Keeps (R : Reading σ κ config) (t : UniqueTable σ (Node κ)) (d : Diagram κ) : Prop where
  shows : t.Shows d
  ordered : d.Ordered
  holds : R.Holds d

theorem Keeps.mono {d : Diagram κ} (keeps : R.Keeps t d)
    (kept : ∀ i node, t.cell? i = some node → t'.cell? i = some node) : R.Keeps t' d :=
  ⟨keeps.shows.mono kept, keeps.ordered, keeps.holds⟩

theorem Keeps.lowBranch {place : Nat} {offset scale : κ} {bit : Bit} {low high : Diagram κ}
    (keeps : R.Keeps t (.test place offset scale bit low high)) : R.Keeps t low :=
  ⟨keeps.shows.2.1, keeps.ordered.2.2.2.1, (R.branches keeps.holds).1⟩

theorem Keeps.highBranch {place : Nat} {offset scale : κ} {bit : Bit} {low high : Diagram κ}
    (keeps : R.Keeps t (.test place offset scale bit low high)) : R.Keeps t high :=
  ⟨keeps.shows.2.2, keeps.ordered.2.2.2.2, (R.branches keeps.holds).2⟩

theorem keeps_constant (value : κ) : R.Keeps t (.constant value) :=
  ⟨trivial, trivial, R.constant value⟩

theorem Keeps.of_sharesNode {d d' : Diagram κ} (keeps : R.Keeps t d) (shares : d.SharesNode d')
    (holds : R.Holds d') : R.Keeps t d' :=
  ⟨keeps.shows.of_sharesNode shares, shares.ordered_iff.mpr keeps.ordered, holds⟩

theorem Keeps.round {d : Diagram κ} (keeps : R.Keeps t d) :
    R.Keeps t (d.round config.precision) :=
  keeps.of_sharesNode (.reshape _ _ _) (R.round keeps.holds)

theorem Keeps.cofactor {d : Diagram κ} (keeps : R.Keeps t d) (bit : Bit) (value : Bool) :
    R.Keeps t (d.cofactor config.precision bit value) :=
  ⟨keeps.shows.cofactor config.precision bit value,
    Diagram.cofactor_ordered keeps.ordered config.precision bit value,
    R.cofactor bit value keeps.holds⟩

structure Applied (R : Reading σ κ config) (t : UniqueTable σ (Node κ)) (key : ApplyKey)
    (f g result : Diagram κ) : Prop where
  left : f.edge.key = key.left
  right : g.edge.key = key.right
  keepsLeft : R.Keeps t f
  keepsRight : R.Keeps t g
  keeps : R.Keeps t result
  bits : result.bits ⊆ f.bits ∪ g.bits
  combines : R.Combines key.operator f g result

structure Restricted (R : Reading σ κ config) (t : UniqueTable σ (Node κ)) (key : RestrictKey)
    (place : Nat) (top : Bit) (low high result : Diagram κ) : Prop where
  node : key.node = ⟨place + 1⟩
  keepsNode : R.Keeps t (.test place 0 1 top low high)
  keeps : R.Keeps t result
  bits : result.bits ⊆ (Diagram.test place (0 : κ) 1 top low high).bits.erase key.bit
  fixes : R.Fixes key.bit key.value (.test place 0 1 top low high) result

theorem Applied.mono {key : ApplyKey} {f g result : Diagram κ}
    (entry : R.Applied t key f g result)
    (kept : ∀ i node, t.cell? i = some node → t'.cell? i = some node) :
    R.Applied t' key f g result :=
  { entry with
    keepsLeft := entry.keepsLeft.mono kept
    keepsRight := entry.keepsRight.mono kept
    keeps := entry.keeps.mono kept }

theorem Restricted.mono {key : RestrictKey} {place : Nat} {top : Bit}
    {low high result : Diagram κ} (entry : R.Restricted t key place top low high result)
    (kept : ∀ i node, t.cell? i = some node → t'.cell? i = some node) :
    R.Restricted t' key place top low high result :=
  { entry with
    keepsNode := entry.keepsNode.mono kept
    keeps := entry.keeps.mono kept }

end Reading

namespace Store

/-- An operation that only adds: it puts items in the unique tables, so occupied cells keep theirs,
and pins stay. -/
structure Grows (s s' : Store σ κ) : Prop where
  config : s'.config = s.config
  nodeTable : s.nodes.Extends s'.nodes
  rootTable : s.roots.Extends s'.roots
  nodes : ∀ i node, s.nodes.cell? i = some node → s'.nodes.cell? i = some node
  roots : ∀ i e, s.roots.cell? i = some e → s'.roots.cell? i = some e
  pins : s'.pins = s.pins

omit [Scalar σ] in
@[simp] theorem Grows.refl (s : Store σ κ) : s.Grows s :=
  ⟨rfl, .refl, .refl, fun _ _ kept => kept, fun _ _ kept => kept, rfl⟩

omit [Scalar σ] in
theorem Grows.trans {s s' s'' : Store σ κ} (first : s.Grows s') (second : s'.Grows s'') :
    s.Grows s'' where
  config := second.config.trans first.config
  nodeTable := first.nodeTable.trans second.nodeTable
  rootTable := first.rootTable.trans second.rootTable
  nodes i node kept := second.nodes i node (first.nodes i node kept)
  roots i e kept := second.roots i e (first.roots i e kept)
  pins := second.pins.trans first.pins

omit [Scalar σ] in
theorem Grows.rootShows {s s' : Store σ κ} (grows : s.Grows s') {f : Root} {d : Diagram κ}
    (shown : s.RootShows f d) : s'.RootShows f d :=
  ⟨grows.roots _ _ shown.1, shown.2.mono grows.nodes⟩

variable {config : StoreConfig σ} {R : Reading σ κ config}

/-- The invariant of a store under a reading. -/
structure Sound (R : Reading σ κ config) (s : Store σ κ) : Prop where
  config_eq : s.config = config
  nodeCells : s.nodes.Sound
  rootCells : s.roots.Sound
  nodeTolerance : s.nodes.tolerance = config.tolerance
  rootTolerance : s.roots.tolerance = config.tolerance
  nodes : ∀ {place node}, s.nodes.cell? (place + 1) = some node →
    ∃ low high, node = ⟨node.bit, low.edge, high.edge⟩ ∧
      R.Keeps s.nodes (.test place 0 1 node.bit low high)
  roots : ∀ {i e}, s.roots.cell? i = some e → ∃ d, d.edge = e ∧ R.Keeps s.nodes d
  applied : ∀ {key : ApplyKey} {e}, s.applied.entries[key]? = some e →
    ∃ f g result, result.edge = e ∧ R.Applied s.nodes key f g result
  restricted : ∀ {key : RestrictKey} {e}, s.restricted.entries[key]? = some e →
    ∃ place top low high result, result.edge = e ∧
      R.Restricted s.nodes key place top low high result
  pins : ∀ {i count}, s.pins[i]? = some count → 0 < count ∧ (s.roots.cell? i).isSome

namespace Sound

variable {s : Store σ κ}

theorem rootShows (sound : s.Sound R) {f : Root} (live : s.roots.isOccupied f.index) :
    ∃ d, s.RootShows f d ∧ R.Keeps s.nodes d := by
  obtain ⟨e, stored⟩ := Option.isSome_iff_exists.mp live
  obtain ⟨d, rfl, keeps⟩ := sound.roots stored
  exact ⟨d, ⟨stored, keeps.shows⟩, keeps⟩

theorem keeps (sound : s.Sound R) {f : Root} {d : Diagram κ} (shown : s.RootShows f d) :
    R.Keeps s.nodes d := by
  obtain ⟨d', equal, keeps⟩ := sound.roots shown.1
  rwa [shown.2.eq_of_edge_eq keeps.shows equal] at keeps

theorem withRoots (sound : s.Sound R) {roots : UniqueTable σ (Edge κ)} (cells : roots.Sound)
    (tolerance : roots.tolerance = config.tolerance)
    (kept : ∀ i e, s.roots.cell? i = some e → roots.cell? i = some e)
    (new : ∀ i e, roots.cell? i = some e →
      s.roots.cell? i = some e ∨ ∃ d, d.edge = e ∧ R.Keeps s.nodes d) :
    ({ s with roots } : Store σ κ).Sound R :=
  { sound with
    rootCells := cells
    rootTolerance := tolerance
    roots := fun stored => by
      rcases new _ _ stored with old | fresh
      · exact sound.roots old
      · exact fresh
    pins := fun pinned => by
      obtain ⟨positive, live⟩ := sound.pins pinned
      obtain ⟨e, stored⟩ := Option.isSome_iff_exists.mp live
      exact ⟨positive, Option.isSome_iff_exists.mpr ⟨e, kept _ _ stored⟩⟩ }

theorem withNodes (sound : s.Sound R) {nodes : UniqueTable σ (Node κ)} (cells : nodes.Sound)
    (tolerance : nodes.tolerance = config.tolerance)
    (kept : ∀ i node, s.nodes.cell? i = some node → nodes.cell? i = some node)
    (new : ∀ place node, nodes.cell? (place + 1) = some node →
      s.nodes.cell? (place + 1) = some node ∨ ∃ low high, node = ⟨node.bit, low.edge, high.edge⟩ ∧
        R.Keeps nodes (.test place 0 1 node.bit low high)) :
    ({ s with nodes } : Store σ κ).Sound R :=
  { sound with
    nodeCells := cells
    nodeTolerance := tolerance
    nodes := fun stored => by
      rcases new _ _ stored with old | fresh
      · obtain ⟨low, high, equal, keeps⟩ := sound.nodes old
        exact ⟨low, high, equal, keeps.mono kept⟩
      · exact fresh
    roots := fun stored => by
      obtain ⟨d, equal, keeps⟩ := sound.roots stored
      exact ⟨d, equal, keeps.mono kept⟩
    applied := fun stored => by
      obtain ⟨f, g, result, equal, entry⟩ := sound.applied stored
      exact ⟨f, g, result, equal, entry.mono kept⟩
    restricted := fun stored => by
      obtain ⟨place, top, low, high, result, equal, entry⟩ := sound.restricted stored
      exact ⟨place, top, low, high, result, equal, entry.mono kept⟩ }

theorem withApplied (sound : s.Sound R) {applied : ComputedTable ApplyKey (Edge κ)}
    (entries : ∀ {key : ApplyKey} {e}, applied.entries[key]? = some e →
      ∃ f g result, result.edge = e ∧ R.Applied s.nodes key f g result) :
    ({ s with applied } : Store σ κ).Sound R :=
  { sound with applied := entries }

theorem withRestricted (sound : s.Sound R) {restricted : ComputedTable RestrictKey (Edge κ)}
    (entries : ∀ {key : RestrictKey} {e}, restricted.entries[key]? = some e →
      ∃ place top low high result, result.edge = e ∧
        R.Restricted s.nodes key place top low high result) :
    ({ s with restricted } : Store σ κ).Sound R :=
  { sound with restricted := entries }

end Sound

end Store

end BayesDiagram
