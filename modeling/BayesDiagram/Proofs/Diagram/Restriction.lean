import BayesDiagram.Proofs.Diagram.Combination

/-! Fixing and eliminating bits. Restrictions are memoized for nodes, without the transform of the
edge that led there; for every reading they never fail and answer a diagram over the other bits. -/
namespace BayesDiagram.Store

variable {σ κ : Type} [Scalar σ] [Coefficient σ κ] {config : StoreConfig σ}
  {R : Reading σ κ config} {s : Store σ κ} {bit : Bit} {value : Bool}

/-! ### Memoized results -/

omit [Scalar σ] [Coefficient σ κ] in
theorem lookupRestricted_run (s : Store σ κ) (key : RestrictKey) :
    lookupRestricted key s =
      .ok s.restricted.entries[key]? { s with restricted := (s.restricted.lookup key).2 } := by
  rw [← ComputedTable.lookup_fst]
  rfl

theorem Sound.lookupRestricted (sound : s.Sound R) (key : RestrictKey) :
    ({ s with restricted := (s.restricted.lookup key).2 } : Store σ κ).Sound R :=
  sound.withRestricted fun stored => by
    rw [ComputedTable.lookup_snd_entries] at stored
    exact sound.restricted stored

theorem Sound.restricted_of_key (sound : s.Sound R) {place : Nat} {top : Bit}
    {low high : Diagram κ} (keeps : R.Keeps s.nodes (.test place 0 1 top low high)) {e : Edge κ}
    (found : s.restricted.entries[(⟨⟨place + 1⟩, bit, value⟩ : RestrictKey)]? = some e) :
    ∃ d, d.edge = e ∧ R.Keeps s.nodes d ∧
      d.bits ⊆ (Diagram.test place (0 : κ) 1 top low high).bits.erase bit ∧
      R.Fixes bit value (.test place 0 1 top low high) d := by
  obtain ⟨place', top', low', high', d, equal, entry⟩ := sound.restricted found
  cases entry.node
  have same := keeps.shows.eq_of_edge_eq entry.keepsNode.shows rfl
  refine ⟨d, equal, entry.keeps, ?_, ?_⟩
  · rw [← same]
    exact entry.bits
  · rw [← same]
    exact entry.fixes

theorem Sound.recordRestricted (sound : s.Sound R) {place : Nat} {top : Bit}
    {low high result : Diagram κ} (keepsNode : R.Keeps s.nodes (.test place 0 1 top low high))
    (keeps : R.Keeps s.nodes result)
    (bits : result.bits ⊆ (Diagram.test place (0 : κ) 1 top low high).bits.erase bit)
    (fixes : R.Fixes bit value (.test place 0 1 top low high) result) :
    ({ s with restricted := s.restricted.insert ⟨⟨place + 1⟩, bit, value⟩ result.edge } :
      Store σ κ).Sound R :=
  sound.withRestricted fun stored => by
    simp only [ComputedTable.insert, Std.TreeMap.getElem?_insert] at stored
    split at stored
    · next same =>
      cases Std.LawfulEqOrd.eq_of_compare same
      cases stored
      exact ⟨place, top, low, high, result, rfl, rfl, keepsNode, keeps, bits, fixes⟩
    · exact sound.restricted stored

/-! ### The recursion -/

def RestrictsBelow (R : Reading σ κ config) (below : Edge κ → StoreM σ κ (Edge κ)) (bit : Bit)
    (value : Bool) (level : Nat) : Prop :=
  ∀ {s : Store σ κ} {d : Diagram κ}, s.Sound R → R.Keeps s.nodes d → level < d.level →
    s.Yields R (below d.edge) (d.bits.erase bit) (R.Fixes bit value d)

theorem branchRestrict_spec {below : Edge κ → StoreM σ κ (Edge κ)} (sound : s.Sound R)
    {place : Nat} {top : Bit} {low high : Diagram κ}
    (keeps : R.Keeps s.nodes (.test place 0 1 top low high)) (other : top ≠ bit)
    (belowSpec : RestrictsBelow R below bit value top.level) :
    s.Yields R (branchRestrict below ⟨place + 1⟩ ⟨top, low.edge, high.edge⟩ bit value)
      ((Diagram.test place (0 : κ) 1 top low high).bits.erase bit)
      (R.Fixes bit value (.test place 0 1 top low high)) := by
  let key : RestrictKey := ⟨⟨place + 1⟩, bit, value⟩
  let s₁ : Store σ κ := { s with restricted := (s.restricted.lookup key).2 }
  have sound₁ : s₁.Sound R := sound.lookupRestricted key
  have grows₁ : s.Grows s₁ := { Grows.refl s with }
  rw [Yields, branchRestrict, StoreM.bind_of_ok (lookupRestricted_run s key)]
  cases found : s.restricted.entries[key]? with
  | some e =>
    obtain ⟨d, rfl, keeps, bits, fixes⟩ := sound.restricted_of_key keeps found
    exact ⟨d, s₁, rfl, grows₁, sound₁, keeps, bits, fixes⟩
  | none =>
    obtain ⟨proper, aboveLow, aboveHigh, lowOrdered, highOrdered⟩ := keeps.ordered
    obtain ⟨holdsLow, holdsHigh⟩ := R.branches keeps.holds
    obtain ⟨low', s₂, runLow, grows₂, sound₂, keepsLow, bitsLow, fixesLow⟩ :=
      belowSpec sound₁ ⟨keeps.shows.2.1, lowOrdered, holdsLow⟩ aboveLow
    obtain ⟨high', s₃, runHigh, grows₃, sound₃, keepsHigh, bitsHigh, fixesHigh⟩ :=
      belowSpec sound₂ ⟨keeps.shows.2.2.mono grows₂.nodes, highOrdered, holdsHigh⟩ aboveHigh
    have above {d d' : Diagram κ} (ordered : d.Ordered) (bits : d'.bits ⊆ d.bits.erase bit)
        (above : top.level < d.level) : top.level < d'.level :=
      Diagram.lt_level proper.level_lt fun b mem =>
        Nat.lt_of_lt_of_le above (ordered.level_le (Finset.mem_of_mem_erase (bits mem)))
    obtain ⟨d, s₄, runNode, grows₄, sound₄, keepsResult, bits, decides⟩ :=
      makeNode_spec sound₃ (keepsLow.mono grows₃.nodes) keepsHigh proper
        (above lowOrdered bitsLow aboveLow) (above highOrdered bitsHigh aboveHigh)
    have grows := grows₁.trans (grows₂.trans (grows₃.trans grows₄))
    have bits' : d.bits ⊆ (Diagram.test place (0 : κ) 1 top low high).bits.erase bit := by
      rw [Diagram.bits, Finset.erase_insert_of_ne other, Finset.erase_union_distrib]
      exact bits.trans (Finset.insert_subset_insert _ (Finset.union_subset_union bitsLow bitsHigh))
    have fixes := R.fixes_branches place other fixesLow fixesHigh decides
    refine ⟨d, { s₄ with restricted := s₄.restricted.insert key d.edge }, ?_,
      { grows with },
      sound₄.recordRestricted (keeps.mono grows.nodes) keepsResult bits' fixes, keepsResult, bits',
      fixes⟩
    dsimp only
    rw [StoreM.bind_of_ok runLow, StoreM.bind_of_ok runHigh, StoreM.bind_of_ok runNode]
    rfl

theorem restrictStep_spec {below : Edge κ → StoreM σ κ (Edge κ)} (sound : s.Sound R)
    {d : Diagram κ} (keeps : R.Keeps s.nodes d)
    (belowSpec : RestrictsBelow R below bit value d.level) :
    s.Yields R (restrictStep below bit value d.edge) (d.bits.erase bit) (R.Fixes bit value d) := by
  cases d with
  | constant v =>
    exact ⟨.constant v, s, rfl, .refl s, sound, keeps, Finset.empty_subset _,
      R.fixes_absent value (Finset.notMem_empty bit)⟩
  | test place offset scale top low high =>
    have read : StoreM.inspect (Store.node · ⟨place + 1⟩) s =
        .ok (⟨top, low.edge, high.edge⟩ : Node κ) s :=
      StoreM.inspect_of_ok (node_of_shows keeps.shows)
    have run : restrictStep below bit value (Diagram.test place offset scale top low high).edge s =
        (if bit.id < top.id then pure (Diagram.test place offset scale top low high).edge
        else if top = bit then
          roundEdge ((Diagram.test place offset scale top low high).edge.compose
            (if value then high.edge else low.edge))
        else do
          let inner ← branchRestrict below ⟨place + 1⟩ ⟨top, low.edge, high.edge⟩ bit value
          roundEdge ((Diagram.test place offset scale top low high).edge.compose inner) :
          StoreM σ κ (Edge κ)) s := StoreM.bind_of_ok read
    have proper : top.Proper := keeps.ordered.1
    rw [Yields, run]
    split
    · next smaller =>
      have absent : bit ∉ (Diagram.test place offset scale top low high).bits :=
        keeps.ordered.notMem_bits_of_id_lt (by rwa [Diagram.level, proper.level_eq])
      exact ⟨_, s, rfl, .refl s, sound, keeps, (Finset.erase_eq_of_notMem absent).ge,
        R.fixes_absent value absent⟩
    · split
      · next same =>
        subst same
        have fixes := R.fixes_top place offset scale top low high value
        refine ⟨_, s, ?_, .refl s, sound, keeps.cofactor top value, ?_, fixes⟩
        · rw [roundEdge_run, sound.config_eq, Diagram.cofactor, if_pos rfl, Diagram.edge_round,
            Diagram.edge_under]
          cases value <;> rfl
        · have absent := (keeps.cofactor top value).ordered.notMem_bits
            (Diagram.lt_level_cofactor keeps.ordered config.precision proper (Nat.le_refl _) value)
          intro b mem
          exact Finset.mem_erase.mpr
            ⟨fun equal => absent (equal ▸ mem), Diagram.cofactor_bits_subset _ _ _ _ mem⟩
      · next other =>
        have keepsNode : R.Keeps s.nodes (.test place 0 1 top low high) :=
          ⟨keeps.shows, keeps.ordered, R.body keeps.holds⟩
        obtain ⟨inner, s', runInner, grows, sound', keepsInner, bits, fixes⟩ :=
          branchRestrict_spec sound keepsNode other belowSpec
        obtain ⟨holds, fixed⟩ := R.fixes_under keeps.holds keepsInner.holds fixes
        refine ⟨(inner.under (Diagram.test place offset scale top low high).edge).round
          config.precision, s', ?_, grows, sound', keepsInner.of_sharesNode
            ((Diagram.SharesNode.reshape inner _ _).trans (.reshape _ _ _)) holds, ?_, fixed⟩
        · rw [StoreM.bind_of_ok runInner, roundEdge_run, sound'.config_eq, Diagram.edge_round,
            Diagram.edge_under]
        · rw [Diagram.bits_round, Diagram.bits_under]
          exact bits

theorem restrictLevels_spec (sound : s.Sound R) {d : Diagram κ} (keeps : R.Keeps s.nodes d)
    {levels : Nat} (enough : Bit.maxId < levels + d.level) :
    s.Yields R (restrictLevels bit value levels d.edge) (d.bits.erase bit)
      (R.Fixes bit value d) := by
  induction levels generalizing s d with
  | zero =>
    have := keeps.ordered.level_le_maxId
    omega
  | succ levels ih =>
    exact restrictStep_spec sound keeps fun sound keeps below => ih sound keeps (by omega)

theorem restrictEdge_spec (sound : s.Sound R) {d : Diagram κ} (keeps : R.Keeps s.nodes d)
    (bit : Bit) (value : Bool) :
    s.Yields R (restrictEdge d.edge bit value) (d.bits.erase bit) (R.Fixes bit value d) :=
  restrictLevels_spec sound keeps (by rw [levelCount]; omega)

theorem restrict_spec (sound : s.Sound R) {f : Root} {d : Diagram κ} (shown : s.RootShows f d)
    (bit : Bit) (value : Bool) :
    s.YieldsRoot R (restrict f bit value) (d.bits.erase bit) (R.Fixes bit value d) := by
  obtain ⟨h, d', stored, s', run, spec⟩ :=
    (restrictEdge_spec sound (sound.keeps shown) bit value).intern
  refine ⟨h, d', stored, s', ?_, spec⟩
  rw [restrict, StoreM.bind_of_ok (StoreM.inspect_of_ok shown.edge_eq), run]

theorem marginalize_spec (sound : s.Sound R) {f : Root} {d : Diagram κ} (shown : s.RootShows f d)
    (bit : Bit) (op : Operator) :
    s.YieldsRoot R (marginalize f bit op) (d.bits.erase bit) fun result =>
      ∃ low high, low.bits ⊆ d.bits.erase bit ∧ R.Fixes bit false d low ∧
        high.bits ⊆ d.bits.erase bit ∧ R.Fixes bit true d high ∧
        R.Combines op low high result := by
  have keeps := sound.keeps shown
  obtain ⟨low, s₁, runLow, grows₁, sound₁, keepsLow, bitsLow, fixesLow⟩ :=
    restrictEdge_spec sound keeps bit false
  obtain ⟨high, s₂, runHigh, grows₂, sound₂, keepsHigh, bitsHigh, fixesHigh⟩ :=
    restrictEdge_spec sound₁ (keeps.mono grows₁.nodes) bit true
  obtain ⟨h, d', stored, s₃, run, grows₃, sound₃, shown', put, bits, combines⟩ :=
    (applyEdge_spec op sound₂ (keepsLow.mono grows₂.nodes) keepsHigh).intern
  refine ⟨h, d', stored, s₃, ?_, grows₁.trans (grows₂.trans grows₃), sound₃, shown', put,
    bits.trans (Finset.union_subset bitsLow bitsHigh), low, high, bitsLow, fixesLow, bitsHigh,
    fixesHigh, combines⟩
  rw [marginalize, StoreM.bind_of_ok (StoreM.inspect_of_ok shown.edge_eq),
    StoreM.bind_of_ok runLow, StoreM.bind_of_ok runHigh, run]

end BayesDiagram.Store
