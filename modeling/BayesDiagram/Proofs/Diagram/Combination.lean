import BayesDiagram.Proofs.Diagram.Construction

/-! Combinations of two diagrams, followed through shortcuts, factoring and memoized results. For
every reading a combination never fails and answers a diagram over the bits of the operands that
is their combination; the levels left always exceed the number of levels still below. -/
namespace BayesDiagram.Store

variable {σ κ : Type} [Scalar σ] [Coefficient σ κ] {config : StoreConfig σ}
  {R : Reading σ κ config} {s : Store σ κ} {op : Operator} {f g : Diagram κ}

omit [Scalar σ] in
theorem node_eq_of_key_eq {e e' : Edge κ} (equal : e.key = e'.key) : e.node = e'.node :=
  congrArg NodeId.mk (List.cons.inj equal).1

theorem shortcut?_shares {e : Edge κ} (easy : shortcut? op f.edge g.edge = some e) :
    ∃ d, d.edge = e ∧ (f.SharesNode d ∨ g.SharesNode d ∨ ∃ value, d = .constant value) := by
  have ofConstant (value : κ) : ∃ d, d.edge = Edge.constant value ∧
      (f.SharesNode d ∨ g.SharesNode d ∨ ∃ value, d = .constant value) :=
    ⟨.constant value, rfl, .inr (.inr ⟨value, rfl⟩)⟩
  have ofLeft (shift factor : κ) : ∃ d, d.edge = f.edge.rescale shift factor ∧
      (f.SharesNode d ∨ g.SharesNode d ∨ ∃ value, d = .constant value) :=
    ⟨f.rescale shift factor, f.edge_rescale _ _, .inl (.reshape _ _ _)⟩
  have ofRight (shift factor : κ) : ∃ d, d.edge = g.edge.rescale shift factor ∧
      (f.SharesNode d ∨ g.SharesNode d ∨ ∃ value, d = .constant value) :=
    ⟨g.rescale shift factor, g.edge_rescale _ _, .inr (.inl (.reshape _ _ _))⟩
  have left : ∃ d, d.edge = f.edge ∧
      (f.SharesNode d ∨ g.SharesNode d ∨ ∃ value, d = .constant value) :=
    ⟨f, rfl, .inl (.refl f)⟩
  have right : ∃ d, d.edge = g.edge ∧
      (f.SharesNode d ∨ g.SharesNode d ∨ ∃ value, d = .constant value) :=
    ⟨g, rfl, .inr (.inl (.refl g))⟩
  cases op <;> simp only [shortcut?, shortcut?.scaled] at easy <;> split_ifs at easy <;>
    cases easy <;> first
      | exact ofConstant _ | exact ofLeft _ _ | exact ofRight _ _ | exact left | exact right

omit [Scalar σ] in
theorem factored?_shares {precision : Precision} {left right : Edge κ} {shift factor : κ}
    (found : factored? precision op f.edge g.edge = some ⟨left, right, shift, factor⟩) :
    (f.reshape left.offset left.scale).edge = left ∧
      (g.reshape right.offset right.scale).edge = right := by
  cases f with
  | constant value => simp [factored?] at found
  | test place offset scale bit low high =>
    cases g with
    | constant value => simp [factored?] at found
    | test place' offset' scale' bit' low' high' =>
      have inner (node : Nat) : (NodeId.mk (node + 1)).isTerminal = false := rfl
      cases op <;>
        simp only [factored?, Diagram.edge_test, Edge.isConstant, Edge.round, inner,
          Bool.false_eq_true, or_self, if_false, Option.some.injEq, Factored.mk.injEq,
          reduceCtorEq] at found <;>
        obtain ⟨rfl, rfl, -, -⟩ := found <;> exact ⟨rfl, rfl⟩

omit [Scalar σ] in
theorem topBit_edge (shownLeft : s.nodes.Shows f) (shownRight : s.nodes.Shows g)
    (orderedLeft : f.Ordered) (orderedRight : g.Ordered)
    (inner : min f.level g.level < Bit.maxId) :
    ∃ bit, s.topBit f.edge g.edge = .ok bit ∧ bit.level = min f.level g.level ∧
      bit ∈ f.bits ∪ g.bits := by
  obtain ⟨left, foundLeft, levelLeft, memLeft⟩ := bitOf_edge shownLeft
  obtain ⟨right, foundRight, levelRight, memRight⟩ := bitOf_edge shownRight
  have run : s.topBit f.edge g.edge = (do
      let bit := if left.level ≤ right.level then left else right
      if bit.isTerminal then throw Fault.constantOperands
      return bit) := by
    simp only [topBit, foundLeft, foundRight, bind, Except.bind]
  have terminal_level : Bit.terminal.level = Bit.maxId := rfl
  have answer {bit : Bit} (chosen : (if left.level ≤ right.level then left else right) = bit)
      (proper : bit.Proper) : s.topBit f.edge g.edge = .ok bit := by
    simp only [run, chosen, proper.isTerminal_eq]
    rfl
  by_cases upper : left.level ≤ right.level
  · have mem : left ∈ f.bits := by
      rcases memLeft with rfl | mem
      · omega
      · exact mem
    exact ⟨left, answer (if_pos upper) (orderedLeft.proper mem), by omega,
      Finset.mem_union_left _ mem⟩
  · have mem : right ∈ g.bits := by
      rcases memRight with rfl | mem
      · omega
      · exact mem
    exact ⟨right, answer (if_neg upper) (orderedRight.proper mem), by omega,
      Finset.mem_union_right _ mem⟩

/-! ### Memoized results -/

omit [Scalar σ] [Coefficient σ κ] in
theorem lookupApplied_run (s : Store σ κ) (key : ApplyKey) :
    lookupApplied key s =
      .ok s.applied.entries[key]? { s with applied := (s.applied.lookup key).2 } := by
  rw [← ComputedTable.lookup_fst]
  rfl

theorem Sound.lookupApplied (sound : s.Sound R) (key : ApplyKey) :
    ({ s with applied := (s.applied.lookup key).2 } : Store σ κ).Sound R :=
  sound.withApplied fun stored => by
    rw [ComputedTable.lookup_snd_entries] at stored
    exact sound.applied stored

/-- A memoized result answers all operands with its keys. -/
theorem Sound.applied_of_key (sound : s.Sound R) (keepsLeft : R.Keeps s.nodes f)
    (keepsRight : R.Keeps s.nodes g) {e : Edge κ}
    (found : s.applied.entries[(⟨op, f.edge.key, g.edge.key⟩ : ApplyKey)]? = some e) :
    ∃ d, d.edge = e ∧ R.Keeps s.nodes d ∧ d.bits ⊆ f.bits ∪ g.bits ∧ R.Combines op f g d := by
  obtain ⟨f', g', d, equal, entry⟩ := sound.applied found
  have sharesLeft := entry.keepsLeft.shows.sharesNode keepsLeft.shows
    (node_eq_of_key_eq entry.left.symm)
  have sharesRight := entry.keepsRight.shows.sharesNode keepsRight.shows
    (node_eq_of_key_eq entry.right.symm)
  refine ⟨d, equal, entry.keeps, ?_, R.combines_key sharesLeft entry.left.symm sharesRight
    entry.right.symm entry.combines⟩
  rw [sharesLeft.bits_eq, sharesRight.bits_eq]
  exact entry.bits

theorem Sound.recordApplied (sound : s.Sound R) {result : Diagram κ}
    (keepsLeft : R.Keeps s.nodes f) (keepsRight : R.Keeps s.nodes g)
    (keeps : R.Keeps s.nodes result) (bits : result.bits ⊆ f.bits ∪ g.bits)
    (combines : R.Combines op f g result) :
    ({ s with applied := s.applied.insert ⟨op, f.edge.key, g.edge.key⟩ result.edge } :
      Store σ κ).Sound R :=
  sound.withApplied fun stored => by
    simp only [ComputedTable.insert, Std.TreeMap.getElem?_insert] at stored
    split at stored
    · next same =>
      cases Std.LawfulEqOrd.eq_of_compare same
      cases stored
      exact ⟨f, g, result, rfl, rfl, rfl, keepsLeft, keepsRight, keeps, bits, combines⟩
    · exact sound.applied stored

/-! ### The recursion -/

/-- What a combination may rely on for diagrams that lie below a level. -/
def CombinesBelow (R : Reading σ κ config) (below : Edge κ → Edge κ → StoreM σ κ (Edge κ))
    (op : Operator) (level : Nat) : Prop :=
  ∀ {s : Store σ κ} {f g : Diagram κ}, s.Sound R → R.Keeps s.nodes f → R.Keeps s.nodes g →
    level < f.level → level < g.level →
    s.Yields R (below f.edge g.edge) (f.bits ∪ g.bits) (R.Combines op f g)

omit [Scalar σ] in
theorem lt_level_of_cofactors {precision : Precision} {bit : Bit} {value : Bool} {d : Diagram κ}
    (proper : bit.Proper) (orderedLeft : f.Ordered) (orderedRight : g.Ordered)
    (topmost : bit.level = min f.level g.level)
    (bits : d.bits ⊆ (f.cofactor precision bit value).bits ∪ (g.cofactor precision bit value).bits) :
    bit.level < d.level :=
  Diagram.lt_level proper.level_lt fun other mem => by
    rcases Finset.mem_union.mp (bits mem) with memLeft | memRight
    · exact Nat.lt_of_lt_of_le
        (Diagram.lt_level_cofactor orderedLeft precision proper (by omega) value)
        ((Diagram.cofactor_ordered orderedLeft precision bit value).level_le memLeft)
    · exact Nat.lt_of_lt_of_le
        (Diagram.lt_level_cofactor orderedRight precision proper (by omega) value)
        ((Diagram.cofactor_ordered orderedRight precision bit value).level_le memRight)

theorem branchApply_spec {below : Edge κ → Edge κ → StoreM σ κ (Edge κ)} (sound : s.Sound R)
    (keepsLeft : R.Keeps s.nodes f) (keepsRight : R.Keeps s.nodes g)
    (inner : min f.level g.level < Bit.maxId)
    (belowSpec : CombinesBelow R below op (min f.level g.level)) :
    s.Yields R (branchApply below op f.edge g.edge) (f.bits ∪ g.bits) (R.Combines op f g) := by
  let key : ApplyKey := ⟨op, f.edge.key, g.edge.key⟩
  let s₁ : Store σ κ := { s with applied := (s.applied.lookup key).2 }
  have sound₁ : s₁.Sound R := sound.lookupApplied key
  have grows₁ : s.Grows s₁ := { Grows.refl s with }
  rw [Yields, branchApply, StoreM.bind_of_ok (lookupApplied_run s key)]
  cases found : s.applied.entries[key]? with
  | some e =>
    -- recorded for operands with the same keys, which need not be these diagrams
    obtain ⟨d, rfl, keeps, bits, combines⟩ := sound.applied_of_key keepsLeft keepsRight found
    exact ⟨d, s₁, rfl, grows₁, sound₁, keeps, bits, combines⟩
  | none =>
    obtain ⟨bit, top, level, mem⟩ := topBit_edge (s := s₁) keepsLeft.shows keepsRight.shows
      keepsLeft.ordered keepsRight.ordered inner
    have proper : bit.Proper := by
      rcases Finset.mem_union.mp mem with memLeft | memRight
      · exact keepsLeft.ordered.proper memLeft
      · exact keepsRight.ordered.proper memRight
    have belowLeft (value : Bool) :=
      Diagram.lt_level_cofactor keepsLeft.ordered config.precision proper (by omega) value
    have belowRight (value : Bool) :=
      Diagram.lt_level_cofactor keepsRight.ordered config.precision proper (by omega) value
    have inScope (value : Bool) : (f.cofactor config.precision bit value).bits ∪
        (g.cofactor config.precision bit value).bits ⊆ f.bits ∪ g.bits :=
      Finset.union_subset_union (f.cofactor_bits_subset _ bit value)
        (g.cofactor_bits_subset _ bit value)
    have leftParts := cofactors_edge (s := s₁) keepsLeft.shows bit
    have rightParts := cofactors_edge (s := s₁) keepsRight.shows bit
    rw [sound₁.config_eq] at leftParts rightParts
    dsimp only
    rw [StoreM.bind_of_ok (StoreM.inspect_of_ok top),
      StoreM.bind_of_ok (StoreM.inspect_of_ok leftParts)]
    dsimp only
    rw [StoreM.bind_of_ok (StoreM.inspect_of_ok rightParts)]
    dsimp only
    rw [← level] at belowSpec
    obtain ⟨low, s₂, runLow, grows₂, sound₂, keepsLow, bitsLow, combinesLow⟩ :=
      belowSpec sound₁ (keepsLeft.cofactor bit false) (keepsRight.cofactor bit false)
        (belowLeft false) (belowRight false)
    obtain ⟨high, s₃, runHigh, grows₃, sound₃, keepsHigh, bitsHigh, combinesHigh⟩ :=
      belowSpec sound₂ ((keepsLeft.cofactor bit true).mono grows₂.nodes)
        ((keepsRight.cofactor bit true).mono grows₂.nodes) (belowLeft true) (belowRight true)
    obtain ⟨d, s₄, runNode, grows₄, sound₄, keeps, bits, decides⟩ :=
      makeNode_spec sound₃ (keepsLow.mono grows₃.nodes) keepsHigh proper
        (lt_level_of_cofactors proper keepsLeft.ordered keepsRight.ordered level bitsLow)
        (lt_level_of_cofactors proper keepsLeft.ordered keepsRight.ordered level bitsHigh)
    have grows := grows₁.trans (grows₂.trans (grows₃.trans grows₄))
    have bits' : d.bits ⊆ f.bits ∪ g.bits :=
      bits.trans (Finset.insert_subset mem
        (Finset.union_subset (bitsLow.trans (inScope false)) (bitsHigh.trans (inScope true))))
    have combines : R.Combines op f g d := R.combines_branches combinesLow combinesHigh decides
    refine ⟨d, { s₄ with applied := s₄.applied.insert key d.edge }, ?_,
      { grows with },
      sound₄.recordApplied (keepsLeft.mono grows.nodes) (keepsRight.mono grows.nodes) keeps bits'
        combines, keeps, bits', combines⟩
    rw [StoreM.bind_of_ok runLow, StoreM.bind_of_ok runHigh, StoreM.bind_of_ok runNode]
    rfl

omit [Scalar σ] in
theorem ordered_edge (op : Operator) (f g : Diagram κ) :
    ∃ f' g', ordered op f.edge g.edge = (f'.edge, g'.edge) ∧
      (f' = f ∧ g' = g ∨ op.isCommutative = true ∧ f' = g ∧ g' = f) := by
  unfold ordered
  split
  · next swapped => exact ⟨g, f, rfl, .inr ⟨swapped.1, rfl, rfl⟩⟩
  · exact ⟨f, g, rfl, .inl ⟨rfl, rfl⟩⟩

theorem factoredApply_spec {below : Edge κ → Edge κ → StoreM σ κ (Edge κ)} (sound : s.Sound R)
    (keepsLeft : R.Keeps s.nodes f) (keepsRight : R.Keeps s.nodes g)
    (inner : min f.level g.level < Bit.maxId)
    (belowSpec : CombinesBelow R below op (min f.level g.level)) :
    s.Yields R (match factored? config.precision op f.edge g.edge with
      | some ⟨left, right, shift, factor⟩ => do
        let result ← branchApply below op left right
        roundEdge (result.rescale shift factor)
      | none => branchApply below op f.edge g.edge) (f.bits ∪ g.bits) (R.Combines op f g) := by
  cases found : factored? config.precision op f.edge g.edge with
  | none => exact branchApply_spec sound keepsLeft keepsRight inner belowSpec
  | some parts =>
    obtain ⟨left, right, shift, factor⟩ := parts
    obtain ⟨holdsLeft, holdsRight, result⟩ :=
      R.combines_factored keepsLeft.holds keepsRight.holds found
    obtain ⟨leftEdge, rightEdge⟩ := factored?_shares found
    have belowParts : CombinesBelow R below op
        (min (f.reshape left.offset left.scale).level
          (g.reshape right.offset right.scale).level) := by
      rwa [f.level_reshape, g.level_reshape]
    obtain ⟨d, s', run, grows, sound', keeps, bits, combines⟩ :=
      branchApply_spec sound (keepsLeft.of_sharesNode (.reshape f _ _) holdsLeft)
        (keepsRight.of_sharesNode (.reshape g _ _) holdsRight)
        (by rwa [f.level_reshape, g.level_reshape]) belowParts
    obtain ⟨holds, combined⟩ := result d keeps.holds combines
    refine ⟨(d.rescale shift factor).round config.precision, s', ?_, grows, sound',
      keeps.of_sharesNode ((Diagram.SharesNode.reshape d _ _).trans (.reshape _ _ _)) holds, ?_,
      combined⟩
    · rw [leftEdge, rightEdge] at run
      dsimp only
      rw [StoreM.bind_of_ok run, roundEdge_run, sound'.config_eq, Diagram.edge_round,
        Diagram.edge_rescale]
    · simpa using bits

omit [Scalar σ] in
theorem not_constant_of_inner (inner : ¬(f.edge.isConstant = true ∧ g.edge.isConstant = true))
    (orderedLeft : f.Ordered) (orderedRight : g.Ordered) : min f.level g.level < Bit.maxId := by
  cases f with
  | constant a =>
    cases g with
    | constant b => exact absurd ⟨rfl, rfl⟩ inner
    | test place offset scale bit low high =>
      exact Nat.lt_of_le_of_lt (Nat.min_le_right _ _) orderedRight.1.level_lt
  | test place offset scale bit low high =>
    exact Nat.lt_of_le_of_lt (Nat.min_le_left _ _) orderedLeft.1.level_lt

theorem applyStep_spec {below : Edge κ → Edge κ → StoreM σ κ (Edge κ)} (sound : s.Sound R)
    (keepsLeft : R.Keeps s.nodes f) (keepsRight : R.Keeps s.nodes g)
    (belowSpec : CombinesBelow R below op (min f.level g.level)) :
    s.Yields R (applyStep below op f.edge g.edge) (f.bits ∪ g.bits) (R.Combines op f g) := by
  rw [Yields, applyStep]
  split
  · next constants =>
    obtain ⟨a, rfl⟩ := (Diagram.isConstant_edge f).mp constants.1
    obtain ⟨b, rfl⟩ := (Diagram.isConstant_edge g).mp constants.2
    refine ⟨.constant (Coefficient.round config.precision (op.compute a b)), s, ?_, .refl s, sound,
      R.keeps_constant _, Finset.empty_subset _, R.combines_constant op a b⟩
    rw [roundEdge_run, sound.config_eq]
    rfl
  · next inner =>
    cases easy : shortcut? op f.edge g.edge with
    | some e =>
      obtain ⟨d, rfl, shares⟩ := shortcut?_shares easy
      obtain ⟨shown, ordered, bits⟩ : s.nodes.Shows d ∧ d.Ordered ∧ d.bits ⊆ f.bits ∪ g.bits := by
        rcases shares with left | right | ⟨value, rfl⟩
        · exact ⟨keepsLeft.shows.of_sharesNode left, left.ordered_iff.mpr keepsLeft.ordered,
            left.bits_eq ▸ Finset.subset_union_left⟩
        · exact ⟨keepsRight.shows.of_sharesNode right, right.ordered_iff.mpr keepsRight.ordered,
            right.bits_eq ▸ Finset.subset_union_right⟩
        · exact ⟨trivial, trivial, Finset.empty_subset _⟩
      obtain ⟨holds, combines⟩ := R.combines_shortcut keepsLeft.shows keepsRight.shows shown
        keepsLeft.holds keepsRight.holds easy
      refine ⟨d.round config.precision, s, ?_, .refl s, sound,
        ⟨(UniqueTable.shows_reshape _ _).mpr shown, (d.ordered_round _).mpr ordered, holds⟩,
        by rwa [d.bits_round], combines⟩
      dsimp only
      rw [roundEdge_run, sound.config_eq, d.edge_round]
    | none =>
      have bound := not_constant_of_inner inner keepsLeft.ordered keepsRight.ordered
      have factored (f' g' : Diagram κ) (keepsLeft : R.Keeps s.nodes f')
          (keepsRight : R.Keeps s.nodes g')
          (same : min f'.level g'.level = min f.level g.level) := by
        rw [← same] at bound belowSpec
        exact factoredApply_spec sound keepsLeft keepsRight bound belowSpec
      -- only a commutative operator has its operands swapped
      obtain ⟨f', g', order, unchanged | swapped⟩ := ordered_edge op f g
      · obtain ⟨rfl, rfl⟩ := unchanged
        obtain ⟨d, s', run, spec⟩ := factored f' g' keepsLeft keepsRight rfl
        refine ⟨d, s', ?_, spec⟩
        rw [← run, order, ← sound.config_eq]
        rfl
      · obtain ⟨commutes, rfl, rfl⟩ := swapped
        obtain ⟨d, s', run, grows, sound', keeps, bits, combines⟩ :=
          factored f' g' keepsRight keepsLeft (Nat.min_comm _ _)
        refine ⟨d, s', ?_, grows, sound', keeps, Finset.union_comm f'.bits g'.bits ▸ bits,
          R.combines_swap commutes combines⟩
        rw [← run, order, ← sound.config_eq]
        rfl

theorem applyLevels_spec (sound : s.Sound R) (keepsLeft : R.Keeps s.nodes f)
    (keepsRight : R.Keeps s.nodes g) {levels : Nat}
    (enough : Bit.maxId < levels + min f.level g.level) :
    s.Yields R (applyLevels op levels f.edge g.edge) (f.bits ∪ g.bits) (R.Combines op f g) := by
  induction levels generalizing s f g with
  | zero =>
    have := keepsLeft.ordered.level_le_maxId
    omega
  | succ levels ih =>
    exact applyStep_spec sound keepsLeft keepsRight fun sound keepsLeft keepsRight left right =>
      ih sound keepsLeft keepsRight (by omega)

theorem applyEdge_spec (op : Operator) (sound : s.Sound R) (keepsLeft : R.Keeps s.nodes f)
    (keepsRight : R.Keeps s.nodes g) :
    s.Yields R (applyEdge op f.edge g.edge) (f.bits ∪ g.bits) (R.Combines op f g) :=
  applyLevels_spec sound keepsLeft keepsRight (by rw [levelCount]; omega)

theorem apply_spec (sound : s.Sound R) {left right : Root} (leftShown : s.RootShows left f)
    (rightShown : s.RootShows right g) (op : Operator) :
    s.YieldsRoot R (apply left right op) (f.bits ∪ g.bits) (R.Combines op f g) := by
  have interned := (applyEdge_spec op sound (sound.keeps leftShown)
    (sound.keeps rightShown)).intern
  obtain ⟨h, d, stored, s', run, spec⟩ := interned
  refine ⟨h, d, stored, s', ?_, spec⟩
  rw [apply, StoreM.bind_of_ok (StoreM.inspect_of_ok leftShown.edge_eq),
    StoreM.bind_of_ok (StoreM.inspect_of_ok rightShown.edge_eq), run]

end BayesDiagram.Store
