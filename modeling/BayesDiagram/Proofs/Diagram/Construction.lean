import BayesDiagram.Proofs.Diagram.Invariant

/-! Normalized nodes and interned roots. A test of a bit over two diagrams below it never fails,
adds at most one node and answers a diagram over the bit and the bits of its branches. -/
namespace BayesDiagram

variable {σ κ : Type}

namespace StoreM

variable {α β : Type} {s s' : Store σ κ}

theorem bind_of_ok {step : StoreM σ κ α} {next : α → StoreM σ κ β} {answer : α}
    (run : step s = .ok answer s') : (step >>= next) s = next answer s' := by
  simp only [bind, EStateM.bind, run]

theorem bind_of_error {step : StoreM σ κ α} {next : α → StoreM σ κ β} {fault : Fault}
    (run : step s = .error fault s') : (step >>= next) s = .error fault s' := by
  simp only [bind, EStateM.bind, run]

theorem bind_eq_ok {step : StoreM σ κ α} {next : α → StoreM σ κ β} {result : β} :
    (step >>= next) s = .ok result s' ↔
      ∃ answer mid, step s = .ok answer mid ∧ next answer mid = .ok result s' := by
  cases run : step s with
  | ok answer mid => simp [bind, EStateM.bind, run]
  | error fault mid => simp [bind, EStateM.bind, run]

theorem inspect_of_ok {read : Store σ κ → Except Fault α} {answer : α}
    (found : read s = .ok answer) : inspect read s = .ok answer s := by
  simp only [inspect, found]

theorem discard_of_ok {step : StoreM σ κ α} {answer : α} (run : step s = .ok answer s') :
    (discard step) s = .ok () s' := by
  show EStateM.map (Function.const α ()) step s = _
  simp only [EStateM.map, run]

theorem get_run (s : Store σ κ) : (get : StoreM σ κ (Store σ κ)) s = .ok s s := rfl

theorem modify_run (change : Store σ κ → Store σ κ) (s : Store σ κ) :
    (modify change : StoreM σ κ Unit) s = .ok () (change s) := rfl

end StoreM

variable [Scalar σ] [Coefficient σ κ]

/-- How a diagram stands in the store after it was rounded and put there: as it is, or as another
transform of the same node within the tolerance. -/
def Diagram.Stored (config : StoreConfig σ) (d stored : Diagram κ) : Prop :=
  stored = d.round config.precision ∨
    d.SharesNode stored ∧
      (d.round config.precision).edge.near config.tolerance stored.edge = true

omit [Scalar σ] in
theorem Diagram.Stored.bits_eq {config : StoreConfig σ} {d stored : Diagram κ}
    (put : d.Stored config stored) : stored.bits = d.bits := by
  rcases put with rfl | ⟨shares, -⟩
  · exact d.bits_round config.precision
  · exact shares.bits_eq

omit [Scalar σ] in
theorem Edge.node_eq_of_near {tolerance : σ} {e f : Edge κ} (near : e.near tolerance f = true) :
    e.node = f.node := by
  simp only [Edge.near, Bool.and_eq_true, beq_iff_eq] at near
  exact near.1.1

namespace Store

variable {config : StoreConfig σ} {R : Reading σ κ config} {s : Store σ κ}

/-- A step that adds to a sound store and answers a diagram over some bits. -/
def Yields (R : Reading σ κ config) (s : Store σ κ) (step : StoreM σ κ (Edge κ))
    (scope : Finset Bit) (meaning : Diagram κ → Prop) : Prop :=
  ∃ d s', step s = .ok d.edge s' ∧ s.Grows s' ∧ s'.Sound R ∧ R.Keeps s'.nodes d ∧
    d.bits ⊆ scope ∧ meaning d

def YieldsRoot (R : Reading σ κ config) (s : Store σ κ) (step : StoreM σ κ Root)
    (scope : Finset Bit) (meaning : Diagram κ → Prop) : Prop :=
  ∃ f d stored s', step s = .ok f s' ∧ s.Grows s' ∧ s'.Sound R ∧ s'.RootShows f stored ∧
    d.Stored config stored ∧ stored.bits ⊆ scope ∧ meaning d

omit [Scalar σ] in
theorem roundEdge_run (s : Store σ κ) (e : Edge κ) :
    roundEdge e s = .ok (e.round s.config.precision) s := rfl

/-! ### Nodes -/

omit [Scalar σ] in
theorem putNode_run (s : Store σ κ) (node : Node κ) :
    putNode node s =
      .ok ⟨(s.nodes.put node).1⟩ { s with nodes := (s.nodes.put node).2 } := rfl

theorem putNode_spec (sound : s.Sound R) {bit : Bit} {low high : Diagram κ}
    (lowShown : s.nodes.Shows low) (highShown : s.nodes.Shows high)
    (ordered : (Diagram.test 0 (0 : κ) 1 bit low high).Ordered)
    (holds : ∀ place, R.Holds (.test place 0 1 bit low high)) :
    ∃ place low' high' s', putNode ⟨bit, low.edge, high.edge⟩ s = .ok ⟨place + 1⟩ s' ∧
      s.Grows s' ∧ s'.Sound R ∧ R.Keeps s'.nodes (.test place 0 1 bit low' high') ∧
      low.SharesNode low' ∧ high.SharesNode high' ∧
      (low' = low ∧ high' = high ∨
        Canonical.matching config.tolerance (⟨bit, low.edge, high.edge⟩ : Node κ)
          ⟨bit, low'.edge, high'.edge⟩ = true) := by
  rcases UniqueTable.put_cases sound.nodeCells (⟨bit, low.edge, high.edge⟩ : Node κ) with
    ⟨i, kept, put, stored, fits⟩ | ⟨i, nodes, put, vacant, cells, tolerance, cell⟩
  · cases i with
    | zero => cases stored
    | succ place =>
      obtain ⟨low', high', equal, keeps⟩ := sound.nodes stored
      rw [sound.nodeTolerance, equal] at fits
      obtain ⟨⟨sameBit, nearLow⟩, nearHigh⟩ := by
        simpa only [Canonical.matching, Bool.and_eq_true, beq_iff_eq] using fits
      obtain ⟨-, lowShown', highShown'⟩ := keeps.shows
      rw [← sameBit] at keeps fits
      refine ⟨place, low', high', s, ?_, .refl s, sound, keeps,
        lowShown.sharesNode lowShown' (Edge.node_eq_of_near nearLow).symm,
        highShown.sharesNode highShown' (Edge.node_eq_of_near nearHigh).symm, .inr fits⟩
      rw [putNode_run, put]
  · cases i with
    | zero =>
      have := cell 0
      cases this
    | succ place =>
      have nodeTable : s.nodes.Extends nodes := by
        have step := UniqueTable.Extends.refl.put (t := s.nodes)
          (⟨bit, low.edge, high.edge⟩ : Node κ)
        rwa [put] at step
      have kept : ∀ j node, s.nodes.cell? j = some node → nodes.cell? j = some node := by
        intro j node stored
        rw [cell, if_neg]
        · exact stored
        · rintro rfl
          rw [vacant] at stored
          cases stored
      have here : nodes.cell? (place + 1) = some ⟨bit, low.edge, high.edge⟩ := by
        rw [cell, if_pos rfl]
      have keeps : R.Keeps nodes (.test place 0 1 bit low high) :=
        ⟨⟨here, lowShown.mono kept, highShown.mono kept⟩, ordered, holds place⟩
      refine ⟨place, low, high, { s with nodes }, ?_,
        { Grows.refl s with nodeTable, nodes := kept },
        sound.withNodes cells (tolerance.trans sound.nodeTolerance) kept ?_, keeps, .refl low,
        .refl high, .inl ⟨rfl, rfl⟩⟩
      · rw [putNode_run, put]
      · intro place' node stored
        rw [cell] at stored
        split at stored
        · next same =>
          cases same
          cases stored
          exact .inr ⟨low, high, rfl, keeps⟩
        · exact .inl stored

end Store

def Diagram.normalized (precision : Precision) (least range : κ) (d : Diagram κ) : Diagram κ :=
  (d.reshape ((d.edge.offset - least) / range) (d.edge.scale / range)).round precision

omit [Scalar σ] in
theorem Diagram.sharesNode_normalized (precision : Precision) (least range : κ) (d : Diagram κ) :
    d.SharesNode (d.normalized precision least range) :=
  (SharesNode.reshape d _ _).trans (.reshape _ _ _)

omit [Scalar σ] in
theorem Diagram.edge_normalized (precision : Precision) (least range : κ) (d : Diagram κ) :
    (d.normalized precision least range).edge =
      NormalForm.branch precision least range d.edge := by
  cases d <;> rfl

theorem NormalForm.ofTest_cases (config : StoreConfig σ) (bit : Bit) (low high : Diagram κ) :
    NormalForm.ofTest config bit low.edge high.edge = .edge low.edge ∨
    (∃ value, NormalForm.ofTest config bit low.edge high.edge = .edge (.constant value)) ∨
    ∃ least range, NormalForm.ofTest config bit low.edge high.edge =
      .node least range ⟨bit, (low.normalized config.precision least range).edge,
        (high.normalized config.precision least range).edge⟩ := by
  simp only [ofTest, Diagram.edge_normalized]
  split
  · exact .inl rfl
  · split
    · exact .inr (.inl ⟨_, rfl⟩)
    · exact .inr (.inr ⟨_, _, rfl⟩)

namespace Store

variable {config : StoreConfig σ} {R : Reading σ κ config} {s : Store σ κ}

theorem makeNode_run {bit : Bit} {low high : Diagram κ} (lowShown : s.nodes.Shows low)
    (highShown : s.nodes.Shows high) (aboveLow : bit.level < low.level)
    (aboveHigh : bit.level < high.level) :
    makeNode bit low.edge high.edge s =
      (match NormalForm.ofTest s.config bit low.edge high.edge with
        | .edge e => pure e
        | .node offset scale node => do
          let id ← putNode node
          roundEdge ⟨offset, scale, id⟩ : StoreM σ κ (Edge κ)) s := by
  obtain ⟨lowBit, lowFound, lowLevel, -⟩ := bitOf_edge lowShown
  obtain ⟨highBit, highFound, highLevel, -⟩ := bitOf_edge highShown
  rw [← lowLevel] at aboveLow
  rw [← highLevel] at aboveHigh
  rw [makeNode, StoreM.bind_of_ok (StoreM.inspect_of_ok lowFound), if_pos aboveLow]
  dsimp only
  rw [StoreM.bind_of_ok (StoreM.inspect_of_ok highFound), if_pos aboveHigh]
  rfl

theorem makeNode_spec (sound : s.Sound R) {bit : Bit} {low high : Diagram κ}
    (keepsLow : R.Keeps s.nodes low) (keepsHigh : R.Keeps s.nodes high) (proper : bit.Proper)
    (aboveLow : bit.level < low.level) (aboveHigh : bit.level < high.level) :
    s.Yields R (makeNode bit low.edge high.edge) (insert bit (low.bits ∪ high.bits))
      (R.Decides bit low high) := by
  have run := makeNode_run keepsLow.shows keepsHigh.shows aboveLow aboveHigh
  rw [sound.config_eq] at run
  rcases NormalForm.ofTest_cases config bit low high with
    lower | ⟨value, narrow⟩ | ⟨least, range, wide⟩
  · obtain ⟨holds, decides⟩ := R.decides_edge low keepsLow.shows keepsHigh.shows keepsLow.holds
      keepsHigh.holds lower (.inl rfl)
    rw [lower] at run
    exact ⟨low, s, run, .refl s, sound, keepsLow,
      Finset.subset_union_left.trans (Finset.subset_insert _ _), decides⟩
  · obtain ⟨holds, decides⟩ := R.decides_edge (.constant value) keepsLow.shows
      keepsHigh.shows keepsLow.holds keepsHigh.holds narrow (.inr ⟨value, rfl⟩)
    rw [narrow] at run
    exact ⟨.constant value, s, run, .refl s, sound, R.keeps_constant value,
      Finset.empty_subset _, decides⟩
  · rw [wide] at run
    let normalLow := low.normalized config.precision least range
    let normalHigh := high.normalized config.precision least range
    have sharesLow : low.SharesNode normalLow := low.sharesNode_normalized _ _ _
    have sharesHigh : high.SharesNode normalHigh := high.sharesNode_normalized _ _ _
    have ordered : (Diagram.test 0 (0 : κ) 1 bit normalLow normalHigh).Ordered := by
      rw [Diagram.Ordered, sharesLow.level_eq, sharesHigh.level_eq, sharesLow.ordered_iff,
        sharesHigh.ordered_iff]
      exact ⟨proper, aboveLow, aboveHigh, keepsLow.ordered, keepsHigh.ordered⟩
    -- a new node may stand in every cell, since its normal form may
    have fresh (place : Nat) : R.Holds (.test place 0 1 bit normalLow normalHigh) :=
      R.body (R.decides_node place keepsLow.holds keepsHigh.holds wide sharesLow
        sharesHigh (.inl rfl)).1
    obtain ⟨place, low', high', s', put, grows, sound', keeps, shareLow, shareHigh, fits⟩ :=
      putNode_spec sound (keepsLow.shows.of_sharesNode sharesLow)
        (keepsHigh.shows.of_sharesNode sharesHigh) ordered fresh
    obtain ⟨holds, decides⟩ := R.decides_node place keepsLow.holds keepsHigh.holds wide
      (sharesLow.trans shareLow) (sharesHigh.trans shareHigh) (by
        rcases fits with ⟨rfl, rfl⟩ | matching
        · exact .inl rfl
        · exact .inr ⟨matching, keeps.holds⟩)
    refine ⟨(Diagram.test place least range bit low' high').round config.precision, s',
      run.trans ?_, grows, sound', ⟨keeps.shows, keeps.ordered, holds⟩, ?_, decides⟩
    · dsimp only
      rw [StoreM.bind_of_ok put, roundEdge_run, sound'.config_eq]
      rfl
    · rw [Diagram.bits_round, Diagram.bits, (sharesLow.trans shareLow).bits_eq,
        (sharesHigh.trans shareHigh).bits_eq]

/-! ### Roots -/

theorem intern_spec (sound : s.Sound R) {d : Diagram κ} (keeps : R.Keeps s.nodes d) :
    ∃ f stored s', intern d.edge s = .ok f s' ∧ s.Grows s' ∧ s'.Sound R ∧
      s'.RootShows f stored ∧ d.Stored config stored := by
  let rounded := d.round config.precision
  have run : intern d.edge s =
      .ok ⟨(s.roots.put rounded.edge).1⟩ { s with roots := (s.roots.put rounded.edge).2 } := by
    simp only [rounded, Diagram.edge_round, ← sound.config_eq]
    rfl
  rcases UniqueTable.put_cases sound.rootCells rounded.edge with
    ⟨i, kept, put, found, fits⟩ | ⟨i, roots, put, vacant, cells, tolerance, cell⟩
  · obtain ⟨stored, rfl, storedKeeps⟩ := sound.roots found
    rw [put] at run
    rw [sound.rootTolerance] at fits
    have shares : rounded.SharesNode stored :=
      keeps.round.shows.sharesNode storedKeeps.shows (Edge.node_eq_of_near fits).symm
    exact ⟨⟨i⟩, stored, s, run, .refl s, sound, ⟨found, storedKeeps.shows⟩,
      .inr ⟨(Diagram.SharesNode.reshape d _ _).trans shares, fits⟩⟩
  · rw [put] at run
    have rootTable : s.roots.Extends roots := by
      have step := UniqueTable.Extends.refl.put (t := s.roots) rounded.edge
      rwa [put] at step
    have kept : ∀ j e, s.roots.cell? j = some e → roots.cell? j = some e := by
      intro j e stored
      rw [cell, if_neg]
      · exact stored
      · rintro rfl
        rw [vacant] at stored
        cases stored
    refine ⟨⟨i⟩, rounded, { s with roots }, run,
      { Grows.refl s with rootTable, roots := kept },
      sound.withRoots cells (tolerance.trans sound.rootTolerance) kept ?_,
      ⟨by rw [cell, if_pos rfl], keeps.round.shows⟩, .inl rfl⟩
    intro j e stored
    rw [cell] at stored
    split at stored
    · cases stored
      exact .inr ⟨rounded, rfl, keeps.round⟩
    · exact .inl stored

theorem Yields.intern {step : StoreM σ κ (Edge κ)} {scope : Finset Bit}
    {meaning : Diagram κ → Prop} (yields : s.Yields R step scope meaning) :
    s.YieldsRoot R (step >>= Store.intern) scope meaning := by
  obtain ⟨d, s₁, run, grows, sound, keeps, bits, means⟩ := yields
  obtain ⟨f, stored, s₂, interned, grows', sound', shown, put⟩ := intern_spec sound keeps
  refine ⟨f, d, stored, s₂, ?_, grows.trans grows', sound', shown, put, ?_, means⟩
  · rw [StoreM.bind_of_ok run, interned]
  · rw [put.bits_eq]
    exact bits

end Store

end BayesDiagram
