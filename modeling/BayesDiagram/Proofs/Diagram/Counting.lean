import BayesDiagram.Proofs.Diagram.Reclamation

/-! Counts. On a sound store the nodes of every live diagram can be counted and its bits listed,
with one answer in all stores that show it; and so can the assignments at which it is not zero be
counted, over any list that has all its bits. -/
namespace BayesDiagram.Store

variable {σ κ : Type} [Coefficient σ κ] {s s' : Store σ κ} {d : Diagram κ} {f : Root}

/-! ### Nodes -/

theorem shows_of_reached (shown : s.nodes.Shows d) {id : NodeId}
    (reached : Reached (descendants.children s) [d.edge.node] id) :
    ∃ below : Diagram κ, below.edge.node = id ∧ below.bits ⊆ d.bits ∧ s.nodes.Shows below ∧
      ∀ s' : Store σ κ, s'.nodes.Shows d → s'.nodes.Shows below := by
  induction reached with
  | start mem =>
    exact ⟨d, (List.mem_singleton.mp mem).symm, Finset.Subset.refl _, shown, fun _ shown' => shown'⟩
  | step _ found mem ih =>
    obtain ⟨below, rfl, bits, stands, everywhere⟩ := ih
    cases below with
    | constant value =>
      cases found
      exact absurd mem List.not_mem_nil
    | test place offset scale bit low high =>
      rw [descendants.children, Diagram.edge_test, node_of_shows stands] at found
      cases found
      have inner := (Finset.subset_insert _ _).trans bits
      rcases List.mem_pair.mp mem with rfl | rfl
      · exact ⟨low, rfl, Finset.subset_union_left.trans inner, stands.2.1, fun s' shown' =>
          (everywhere s' shown').2.1⟩
      · exact ⟨high, rfl, Finset.subset_union_right.trans inner, stands.2.2, fun s' shown' =>
          (everywhere s' shown').2.2⟩

theorem reached_of_shows (shown : s.nodes.Shows d) (shown' : s'.nodes.Shows d) {id : NodeId}
    (reached : Reached (descendants.children s) [d.edge.node] id) :
    Reached (descendants.children s') [d.edge.node] id := by
  induction reached with
  | start mem => exact .start mem
  | @step point child points path found mem ih =>
    obtain ⟨below, rfl, -, stands, everywhere⟩ := shows_of_reached shown path
    refine .step ih ?_ mem
    rw [← found]
    cases below with
    | constant value => rfl
    | test place offset scale bit low high =>
      rw [descendants.children, descendants.children, Diagram.edge_test, node_of_shows stands,
        node_of_shows (everywhere s' shown')]

theorem descendants_eq_of_shows (shown : s.nodes.Shows d) (shown' : s'.nodes.Shows d) :
    ∃ ids, s.descendants [d.edge.node] = .ok ids ∧ s'.descendants [d.edge.node] = .ok ids := by
  have leads {t : Store σ κ} (stands : t.nodes.Shows d) (id : NodeId)
      (mem : id ∈ [d.edge.node]) : t.Leads id :=
    ⟨d, stands, (List.mem_singleton.mp mem).symm⟩
  obtain ⟨reached, run, mem⟩ := descendants_set (leads shown)
  obtain ⟨reached', run', mem'⟩ := descendants_set (leads shown')
  have same : reached.Equiv reached' := .of_forall_mem_iff fun id => by
    rw [mem, mem']
    exact ⟨reached_of_shows shown shown', reached_of_shows shown' shown⟩
  exact ⟨reached.toList, run, same.toList_eq ▸ run'⟩

theorem RootShows.nodeCount_eq (shown : s.RootShows f d) (shown' : s'.RootShows f d) :
    ∃ count, s.nodeCount f = .ok count ∧ s'.nodeCount f = .ok count := by
  obtain ⟨ids, run, run'⟩ := descendants_eq_of_shows shown.2 shown'.2
  refine ⟨ids.length, ?_, ?_⟩
  · rw [nodeCount, bind_of_eq_ok shown.edge_eq, bind_of_eq_ok run]
    rfl
  · rw [nodeCount, bind_of_eq_ok shown'.edge_eq, bind_of_eq_ok run']
    rfl

/-! ### Bits -/

theorem exists_reached_of_mem_bits (shown : s.nodes.Shows d) {bit : Bit} (mem : bit ∈ d.bits) :
    ∃ id node, Reached (descendants.children s) [d.edge.node] id ∧
      s.nodes.cell? id.index = some node ∧ node.bit = bit := by
  induction d with
  | constant value => cases mem
  | test place offset scale top low high ihLow ihHigh =>
    have start : Reached (descendants.children s) [⟨place + 1⟩] ⟨place + 1⟩ := .start (.head _)
    have children : descendants.children s ⟨place + 1⟩ = .ok [low.edge.node, high.edge.node] := by
      rw [descendants.children, node_of_shows shown]
      rfl
    have below {child id : NodeId} (isChild : child ∈ [low.edge.node, high.edge.node])
        (path : Reached (descendants.children s) [child] id) :
        Reached (descendants.children s) [⟨place + 1⟩] id :=
      path.mono fun other first => .step start children (List.mem_singleton.mp first ▸ isChild)
    rcases Diagram.mem_bits_test.mp mem with rfl | memLow | memHigh
    · exact ⟨⟨place + 1⟩, _, start, shown.1, rfl⟩
    · obtain ⟨id, node, path, stored, tests⟩ := ihLow shown.2.1 memLow
      exact ⟨id, node, below (.head _) path, stored, tests⟩
    · obtain ⟨id, node, path, stored, tests⟩ := ihHigh shown.2.2 memHigh
      exact ⟨id, node, below (.tail _ (.head _)) path, stored, tests⟩

theorem RootShows.bitsUsed_set (shown : s.RootShows f d) :
    ∃ bits : Std.TreeSet Nat, s.bitsUsed f = .ok (bits.toList.map Bit.mk) ∧
      ∀ id, id ∈ bits ↔ ⟨id⟩ ∈ d.bits := by
  have leads (id : NodeId) (isTop : id ∈ [d.edge.node]) : s.Leads id :=
    ⟨d, shown.2, (List.mem_singleton.mp isTop).symm⟩
  obtain ⟨reached, run, mem⟩ := descendants_set leads
  let inner := reached.toList.filter (!·.isTerminal)
  have mem_inner (id : NodeId) : id ∈ inner ↔
      Reached (descendants.children s) [d.edge.node] id ∧ id.isTerminal = false := by
    rw [List.mem_filter, Std.TreeSet.mem_toList, mem, Bool.not_eq_true']
  have tested (id : NodeId) (isInner : id ∈ inner) :
      ∃ node, s.node id = .ok node ∧ node.bit ∈ d.bits := by
    obtain ⟨path, notTerminal⟩ := (mem_inner id).mp isInner
    obtain ⟨below, rfl, bits, stands, -⟩ := shows_of_reached shown.2 path
    cases below with
    | constant value => cases notTerminal
    | test place offset scale bit low high =>
      exact ⟨_, node_of_shows stands, bits (Finset.mem_insert_self _ _)⟩
  obtain ⟨ids, idsRun⟩ := exists_mapM_eq_ok (f := fun id => (s.node id).map (·.bit.id))
    fun id (isInner : id ∈ inner) => by
      obtain ⟨node, found, -⟩ := tested id isInner
      exact ⟨node.bit.id, by rw [found]; rfl⟩
  refine ⟨.ofList ids, ?_, fun id => ?_⟩
  · rw [bitsUsed, bind_of_eq_ok shown.edge_eq, bind_of_eq_ok run, bind_of_eq_ok idsRun]
    rfl
  · rw [Std.TreeSet.mem_ofList, List.contains_iff_mem, mem_of_mapM_eq_ok idsRun]
    constructor
    · rintro ⟨place, isInner, read⟩
      obtain ⟨node, found, mem⟩ := tested place isInner
      rw [found] at read
      cases read
      exact mem
    · intro mem
      obtain ⟨place, node, path, stored, tests⟩ := exists_reached_of_mem_bits shown.2 mem
      refine ⟨place, (mem_inner place).mpr ⟨path, ?_⟩, ?_⟩
      · obtain ⟨index⟩ := place
        cases index with
        | zero => cases stored
        | succ index => rfl
      · rw [node_of_cell? stored]
        exact congrArg (Except.ok ∘ Bit.id) tests

theorem RootShows.mem_bitsUsed (shown : s.RootShows f d) :
    ∃ used, s.bitsUsed f = .ok used ∧ ∀ bit, bit ∈ used ↔ bit ∈ d.bits := by
  obtain ⟨bits, run, mem⟩ := shown.bitsUsed_set
  refine ⟨_, run, fun bit => ?_⟩
  rw [← mem bit.id, List.mem_map]
  constructor
  · rintro ⟨id, listed, rfl⟩
    exact Std.TreeSet.mem_toList.mp listed
  · exact fun listed => ⟨bit.id, Std.TreeSet.mem_toList.mpr listed, rfl⟩

theorem RootShows.bitsUsed_eq (shown : s.RootShows f d) (shown' : s'.RootShows f d) :
    ∃ bits, s.bitsUsed f = .ok bits ∧ s'.bitsUsed f = .ok bits := by
  obtain ⟨bits, run, mem⟩ := shown.bitsUsed_set
  obtain ⟨bits', run', mem'⟩ := shown'.bitsUsed_set
  have same : bits.Equiv bits' := .of_forall_mem_iff fun id => by rw [mem, mem']
  exact ⟨_, run, same.toList_eq ▸ run'⟩

/-! ### Assignments -/

variable {α β : Type}

def Total (step : StateT CountMemo (Except Fault) α) : Prop :=
  ∀ memo, ∃ answer memo', step memo = .ok (answer, memo')

theorem Total.pure (answer : α) : Total (pure answer) :=
  fun memo => ⟨answer, memo, rfl⟩

theorem Total.bind {step : StateT CountMemo (Except Fault) α}
    {next : α → StateT CountMemo (Except Fault) β} (total : Total step)
    (then_total : ∀ answer, Total (next answer)) : Total (step >>= next) := by
  intro memo
  obtain ⟨answer, memo', run⟩ := total memo
  obtain ⟨result, memo'', run'⟩ := then_total answer memo'
  refine ⟨result, memo'', ?_⟩
  show (step memo >>= fun pair => next pair.1 pair.2) = _
  rw [run]
  exact run'

theorem Total.read {reads : Except Fault α} {answer : α}
    {next : α → StateT CountMemo (Except Fault) β} (found : reads = .ok answer)
    (total : Total (next answer)) :
    Total ((liftM reads : StateT CountMemo (Except Fault) α) >>= next) := by
  subst found
  exact total

theorem Total.memoized (count : Nat) (key : List Nat) : Total (do
    modify (·.insert key count)
    return count : StateT CountMemo (Except Fault) Nat) :=
  fun memo => ⟨count, memo.insert key count, rfl⟩

variable {bits : List Bit} {bit : Bit} {position skipped : Nat}

theorem drop_eq_of_findIdx?
    (found : (bits.drop position).findIdx? (· == bit) = some skipped) :
    bits.drop position = (bits.drop position).take skipped ++
      bit :: bits.drop (position + skipped + 1) := by
  obtain ⟨bound, here⟩ := List.findIdx?_eq_some_iff_findIdx_eq.mp found
  have tests := List.of_findIdx?_eq_some found
  rw [List.getElem?_eq_getElem bound] at tests
  have split := List.take_append_drop skipped (bits.drop position)
  rw [List.drop_eq_getElem_cons bound, beq_iff_eq.mp tests, List.drop_drop] at split
  exact split.symm

theorem left_lt_of_findIdx?
    (found : (bits.drop position).findIdx? (· == bit) = some skipped) :
    bits.length - (position + skipped + 1) < bits.length - position := by
  have bound := (List.findIdx?_eq_some_iff_findIdx_eq.mp found).1
  rw [List.length_drop] at bound
  omega

theorem nodup_of_increasing (sorted : bits.Pairwise fun bit later => bit.id < later.id) :
    bits.Nodup :=
  sorted.imp fun before same => Nat.ne_of_lt before (congrArg Bit.id same)

theorem mem_left_of_lt (sorted : bits.Pairwise fun bit later => bit.id < later.id)
    (found : (bits.drop position).findIdx? (· == bit) = some skipped) {later : Bit}
    (mem : later ∈ bits.drop position) (behind : bit.id < later.id) :
    later ∈ bits.drop (position + skipped + 1) := by
  have remaining := sorted.drop (i := position)
  rw [drop_eq_of_findIdx? found] at mem remaining
  obtain ⟨-, -, ahead⟩ := List.pairwise_append.mp remaining
  rcases List.mem_append.mp mem with before | rest
  · have := ahead later before bit (.head _)
    omega
  · rcases List.mem_cons.mp rest with rfl | left
    · omega
    · exact left

theorem ne_none_of_mem (mem : bit ∈ bits.drop position) :
    (bits.drop position).findIdx? (· == bit) ≠ none := fun missed => by
  simpa using List.findIdx?_eq_none_iff.mp missed bit mem

variable [Scalar σ]

theorem edge_total (total : ∀ {d : Diagram κ}, s.nodes.Shows d → d.Ordered →
      (∀ bit ∈ d.bits, bit ∈ bits.drop position) → Total (s.countEdge bits position d.edge))
    (shown : s.nodes.Shows d) (ordered : d.Ordered)
    (within : ∀ bit ∈ d.bits, bit ∈ bits.drop position) (offset scale : κ) (top : NodeId) :
    Total (s.countEdge bits position
      ((Edge.compose ⟨offset, scale, top⟩ d.edge).round s.config.precision)) := by
  rw [← Diagram.edge_under, ← Diagram.edge_round]
  refine total ((UniqueTable.shows_reshape _ _).mpr ((UniqueTable.shows_reshape _ _).mpr shown))
    (by simpa using ordered) fun bit mem => ?_
  rw [Diagram.bits_round, Diagram.bits_under] at mem
  exact within bit mem

/-- Counting finds every bit that the diagram tests among those that are left. -/
theorem countEdge_total (sorted : bits.Pairwise fun bit later => bit.id < later.id)
    (shown : s.nodes.Shows d) (ordered : d.Ordered)
    (within : ∀ bit ∈ d.bits, bit ∈ bits.drop position) :
    Total (s.countEdge bits position d.edge) := by
  -- the positions that are left decrease, while lifting a branch rebuilds the diagram
  induction size : bits.length - position using Nat.strong_induction_on
    generalizing position d with
  | _ size' ih =>
    subst size
    rw [countEdge]
    split
    · exact .pure _
    cases d with
    | constant value => exact .pure 0
    | test place offset scale bit low high =>
      refine Total.bind (fun memo => ⟨memo, memo, rfl⟩) fun memo => ?_
      split
      · exact .pure _
      refine Total.read (node_of_shows shown) ?_
      obtain ⟨here, withinLow, withinHigh⟩ := Diagram.forall_mem_bits_test.mp within
      obtain ⟨proper, aboveLow, aboveHigh, lowOrdered, highOrdered⟩ := ordered
      dsimp only
      split
      · next missed => exact absurd missed (ne_none_of_mem here)
      · next skipped found =>
        have branch {d : Diagram κ} (shown : s.nodes.Shows d) (ordered : d.Ordered)
            (within : ∀ later ∈ d.bits, later ∈ bits.drop position) (above : bit.level < d.level) :
            Total (s.countEdge bits (position + skipped + 1)
              ((Edge.compose ⟨offset, scale, ⟨place + 1⟩⟩ d.edge).round s.config.precision)) :=
          edge_total
            (fun shown ordered within =>
              ih _ (left_lt_of_findIdx? found) shown ordered within rfl)
            shown ordered (fun later mem => mem_left_of_lt sorted found (within later mem)
              (ordered.id_lt proper above mem)) offset scale _
        refine .bind (branch shown.2.1 lowOrdered withinLow aboveLow) fun _ => ?_
        refine .bind (branch shown.2.2 highOrdered withinHigh aboveHigh) fun _ => ?_
        exact .memoized _ _

theorem RootShows.countNonzero_run (shown : s.RootShows f d) (bits : List Bit) :
    ∃ sorted : List Bit, (sorted.Pairwise fun bit later => bit.id < later.id) ∧
      (∀ bit, bit ∈ sorted ↔ bit ∈ bits) ∧
      s.countNonzero f bits = Prod.fst <$> s.countEdge sorted 0 d.edge ∅ := by
  let ids := (Std.TreeSet.ofList (bits.map Bit.id)).toList
  have increasing : ids.Pairwise fun id later => compare id later = .lt :=
    Std.TreeSet.ordered_toList
  refine ⟨ids.map Bit.mk, List.pairwise_map.mpr (increasing.imp Nat.compare_eq_lt.mp),
    fun bit => ?_, ?_⟩
  · simp only [ids, List.mem_map, Std.TreeSet.mem_toList, Std.TreeSet.mem_ofList,
      List.contains_iff_mem]
    constructor
    · rintro ⟨_, ⟨other, mem, rfl⟩, rfl⟩
      exact mem
    · exact fun mem => ⟨bit.id, ⟨bit, mem, rfl⟩, rfl⟩
  · rw [countNonzero, shown.edge_eq]
    rfl

theorem countNonzero_total (shown : s.RootShows f d) (ordered : d.Ordered)
    (within : ∀ bit ∈ d.bits, bit ∈ bits) : ∃ count, s.countNonzero f bits = .ok count := by
  obtain ⟨sorted, increasing, listed, run⟩ := shown.countNonzero_run bits
  have total : Total (s.countEdge sorted 0 d.edge) :=
    countEdge_total increasing shown.2 ordered fun bit mem => (listed bit).mpr (within bit mem)
  obtain ⟨count, memo, counted⟩ := total ∅
  refine ⟨count, ?_⟩
  rw [run, counted]
  rfl

end BayesDiagram.Store
