import BayesDiagram.Proofs.Diagram.Counting
import BayesDiagram.Proofs.Exact.Ranges
import Mathlib

/-! Support counting. Over exact numbers the count of a live diagram is the number of assignments at
which its function is away from zero by more than the tolerance. The bounds of an edge settle a
whole subtree, bits that are skipped double the count, and a count that was made before is that of
the same diagram over the same bits, since its key names both. -/
namespace BayesDiagram

/-- The assignments of some bits, each given by the bits that it sets, at which a function is away
from zero by more than a tolerance. -/
def supportOf (tolerance : Rat) (F : (Bit → Bool) → Rat) (bits : Finset Bit) :
    Finset (Finset Bit) :=
  bits.powerset.filter fun high => tolerance < |F fun bit => decide (bit ∈ high)|

def Assignment.over {bits : List Bit} (a : {bit // bit ∈ bits} → Bool) : Assignment := fun bit =>
  if listed : bit ∈ bits then some (a ⟨bit, listed⟩) else none

def extended {bits : List Bit} (a : {bit // bit ∈ bits} → Bool) (bit : Bit) : Bool :=
  if listed : bit ∈ bits then a ⟨bit, listed⟩ else false

theorem over_of_mem {bits : List Bit} (a : {bit // bit ∈ bits} → Bool) {bit : Bit}
    (listed : bit ∈ bits) : Assignment.over a bit = some (extended a bit) := by
  rw [Assignment.over, extended, dif_pos listed, dif_pos listed]

section Support

variable {tolerance : Rat} {F : (Bit → Bool) → Rat} {bits : Finset Bit}

theorem card_supportOf_of_away (away : ∀ a, tolerance < |F a|) :
    (supportOf tolerance F bits).card = 2 ^ bits.card := by
  rw [supportOf, Finset.filter_true_of_mem fun high _ => away _, Finset.card_powerset]

theorem card_supportOf_of_near (near : ∀ a, |F a| ≤ tolerance) :
    (supportOf tolerance F bits).card = 0 := by
  rw [supportOf, Finset.filter_false_of_mem fun high _ => not_lt.mpr (near _), Finset.card_empty]

theorem card_supportOf_insert {bit : Bit} (new : bit ∉ bits) :
    (supportOf tolerance F (insert bit bits)).card =
      (supportOf tolerance (fun a => F (Function.update a bit false)) bits).card +
        (supportOf tolerance (fun a => F (Function.update a bit true)) bits).card := by
  simp only [supportOf, Finset.card_filter]
  rw [Finset.sum_powerset_insert new]
  congr 1
  · refine Finset.sum_congr rfl fun high within => ?_
    have clear : Function.update (fun other => decide (other ∈ high)) bit false =
        fun other => decide (other ∈ high) := by
      funext other
      by_cases same : other = bit
      · subst same
        have absent : other ∉ high := fun mem => new (Finset.mem_powerset.mp within mem)
        simp [absent]
      · rw [Function.update_of_ne same]
    rw [clear]
  · refine Finset.sum_congr rfl fun high _ => ?_
    have set : Function.update (fun other => decide (other ∈ high)) bit true =
        fun other => decide (other ∈ insert bit high) := by
      funext other
      by_cases same : other = bit
      · simp [same]
      · rw [Function.update_of_ne same]
        simp [same]
    rw [set]

theorem card_supportOf_eq (bits : List Bit) :
    (supportOf tolerance F bits.toFinset).card =
      Fintype.card {a : {bit // bit ∈ bits} → Bool // tolerance < |F (extended a)|} := by
  have chosen {high : Finset Bit} (within : high ⊆ bits.toFinset) :
      extended (fun bit : {bit // bit ∈ bits} => decide (bit.1 ∈ high)) =
        fun bit => decide (bit ∈ high) := by
    funext bit
    rw [extended]
    split
    · rfl
    · next unlisted =>
      have clear : bit ∉ high := fun mem => unlisted (List.mem_toFinset.mp (within mem))
      exact (decide_eq_false clear).symm
  have read (a : {bit // bit ∈ bits} → Bool) :
      (fun bit => decide (bit ∈ bits.toFinset.filter (extended a ·))) = extended a := by
    funext bit
    by_cases listed : bit ∈ bits
    · simp [listed]
    · simp [listed, extended]
  rw [Fintype.card_subtype]
  refine Finset.card_nbij' (fun high bit => decide (bit.1 ∈ high))
    (fun a => bits.toFinset.filter (extended a ·)) ?_ ?_ ?_ ?_
  · intro high mem
    obtain ⟨within, away⟩ := Finset.mem_filter.mp mem
    refine Finset.mem_filter.mpr ⟨Finset.mem_univ _, ?_⟩
    rw [chosen (Finset.mem_powerset.mp within)]
    exact away
  · intro a mem
    refine Finset.mem_filter.mpr ⟨Finset.mem_powerset.mpr (Finset.filter_subset _ _), ?_⟩
    rw [read]
    exact (Finset.mem_filter.mp mem).2
  · intro high mem
    have within := Finset.mem_powerset.mp (Finset.mem_filter.mp mem).1
    simp only [chosen within, decide_eq_true_eq]
    exact Finset.filter_mem_eq_inter.trans (Finset.inter_eq_right.mpr within)
  · intro a _
    funext bit
    have here := congrFun (read a) bit.1
    rw [extended, dif_pos bit.2] at here
    exact here

end Support

namespace Diagram

def supportSize (tolerance : Rat) (bits : List Bit) (d : Diagram Rat) : Nat :=
  (supportOf tolerance (fun a => d.value a) bits.toFinset).card

variable {tolerance : Rat} {bits : List Bit} {d : Diagram Rat}

theorem supportSize_of_bounds (normal : d.Normal) (distinct : bits.Nodup)
    (outside : tolerance < d.edge.least ∨ d.edge.greatest < -tolerance) :
    d.supportSize tolerance bits = 1 <<< bits.length := by
  rw [supportSize, card_supportOf_of_away, List.toFinset_card_of_nodup distinct, Nat.one_shiftLeft]
  intro a
  obtain ⟨least, greatest⟩ := value_mem_span normal a
  rw [lt_abs]
  rcases outside with above | below
  · exact .inl (above.trans_le least)
  · exact .inr (lt_neg_of_lt_neg (greatest.trans_lt below))

theorem supportSize_constant {v : Rat} (inside : ¬(tolerance < v ∨ v < -tolerance)) :
    (constant v).supportSize tolerance bits = 0 := by
  refine card_supportOf_of_near fun a => ?_
  rw [value_constant, ← not_lt, lt_abs, lt_neg]
  exact inside

theorem supportSize_round (precision : Precision) :
    (d.round precision).supportSize tolerance bits = d.supportSize tolerance bits := by
  simp only [supportSize, value_round]

theorem supportSize_cons {first : Bit} (new : first ∉ bits) {low high : Diagram Rat}
    (chooses : ∀ a, d.value a = if a first then high.value a else low.value a)
    (lowFree : first ∉ low.bits) (highFree : first ∉ high.bits) :
    d.supportSize tolerance (first :: bits) =
      low.supportSize tolerance bits + high.supportSize tolerance bits := by
  rw [supportSize, List.toFinset_cons,
    card_supportOf_insert fun mem => new (List.mem_toFinset.mp mem)]
  have free {below : Diagram Rat} (absent : first ∉ below.bits) (a : Bit → Bool) (value : Bool) :
      below.value (Function.update a first value) = below.value a :=
    value_congr fun bit mem => Function.update_of_ne (by rintro rfl; exact absent mem) _ _
  simp only [chooses, Function.update_self, free lowFree, free highFree]
  rfl

/-- Bits that a diagram does not test double its support. -/
theorem supportSize_append {before : List Bit} (distinct : (before ++ bits).Nodup)
    (free : ∀ bit ∈ before, bit ∉ d.bits) :
    d.supportSize tolerance (before ++ bits) =
      d.supportSize tolerance bits <<< before.length := by
  induction before with
  | nil => rfl
  | cons first before ih =>
    rw [List.cons_append] at distinct ⊢
    obtain ⟨new, distinct⟩ := List.nodup_cons.mp distinct
    obtain ⟨absent, free⟩ := List.forall_mem_cons.mp free
    rw [supportSize_cons new (fun a => (ite_self _).symm) absent absent,
      ih distinct free, List.length_cons, Nat.shiftLeft_succ, two_mul]

end Diagram

namespace Store

variable {config : StoreConfig Rat} {s : Store Rat Rat} {d : Diagram Rat} {bits : List Bit}
  {position : Nat}

/-! ### Counts made before -/

/-- A count made before is that of the diagram with its key, over the bits from its position on. -/
def CountsKept (s : Store Rat Rat) (bits : List Bit) (memo : CountMemo) : Prop :=
  ∀ position d count, s.nodes.Shows d → memo[position :: d.edge.key]? = some count →
    count = d.supportSize s.config.tolerance (bits.drop position)

def Counts (s : Store Rat Rat) (bits : List Bit) (step : StateT CountMemo (Except Fault) Nat)
    (count : Nat) : Prop :=
  ∀ memo, s.CountsKept bits memo →
    ∃ memo', step memo = .ok (count, memo') ∧ s.CountsKept bits memo'

theorem Counts.pure (count : Nat) : s.Counts bits (pure count) count :=
  fun memo kept => ⟨memo, rfl, kept⟩

theorem Counts.bind {step : StateT CountMemo (Except Fault) Nat} {count result : Nat}
    {next : Nat → StateT CountMemo (Except Fault) Nat} (counts : s.Counts bits step count)
    (then_counts : s.Counts bits (next count) result) : s.Counts bits (step >>= next) result := by
  intro memo kept
  obtain ⟨memo', run, kept'⟩ := counts memo kept
  obtain ⟨memo'', run', kept''⟩ := then_counts memo' kept'
  refine ⟨memo'', ?_, kept''⟩
  show (step memo >>= fun pair => next pair.1 pair.2) = _
  rw [run]
  exact run'

theorem Counts.read {α : Type} {reads : Except Fault α} {answer : α} {result : Nat}
    {next : α → StateT CountMemo (Except Fault) Nat} (found : reads = .ok answer)
    (counts : s.Counts bits (next answer) result) :
    s.Counts bits ((liftM reads : StateT CountMemo (Except Fault) α) >>= next) result := by
  subst found
  exact counts

theorem Counts.memoized (shown : s.nodes.Shows d) {count : Nat}
    (counted : count = d.supportSize s.config.tolerance (bits.drop position)) :
    s.Counts bits (do
      modify (·.insert (position :: d.edge.key) count)
      return count) count := by
  refine fun memo kept => ⟨_, rfl, fun position' d' count' shown' found => ?_⟩
  rw [Std.TreeMap.getElem?_insert] at found
  split at found
  · next same =>
    have equal := Std.LawfulEqOrd.eq_of_compare same
    rw [List.cons.injEq] at equal
    rw [← equal.1, ← shown'.eq_of_edge_eq shown (Exact.edge_eq_of_key_eq equal.2), ← counted]
    exact (Option.some.inj found).symm
  · exact kept position' d' count' shown' found

theorem Counts.lookup (shown : s.nodes.Shows d) {missed : StateT CountMemo (Except Fault) Nat}
    (counts : s.Counts bits missed (d.supportSize s.config.tolerance (bits.drop position))) :
    s.Counts bits (do
      match (← get)[position :: d.edge.key]? with
      | some count => return count
      | none => missed) (d.supportSize s.config.tolerance (bits.drop position)) := by
  intro memo kept
  show ∃ memo', (match memo[position :: d.edge.key]? with
      | some count => Pure.pure count
      | none => missed : StateT CountMemo (Except Fault) Nat) memo = _ ∧ _
  cases found : memo[position :: d.edge.key]? with
  | some count =>
    rw [← kept position d count shown found]
    exact ⟨memo, rfl, kept⟩
  | none => exact counts memo kept

/-! ### Counting -/

theorem branch_counts (below : ∀ {d : Diagram Rat}, s.nodes.Shows d → d.Ordered → d.Normal →
      (∀ bit ∈ d.bits, bit ∈ bits.drop position) →
      s.Counts bits (s.countEdge bits position d.edge)
        (d.supportSize s.config.tolerance (bits.drop position)))
    (shown : s.nodes.Shows d) (ordered : d.Ordered) (normal : d.Normal)
    (within : ∀ bit ∈ d.bits, bit ∈ bits.drop position) (offset : Rat) {scale : Rat}
    (positive : 0 < scale) (top : NodeId) :
    s.Counts bits
      (s.countEdge bits position
        ((Edge.compose ⟨offset, scale, top⟩ d.edge).round s.config.precision))
      ((d.under ⟨offset, scale, top⟩).supportSize s.config.tolerance (bits.drop position)) := by
  have shown' : s.nodes.Shows ((d.under ⟨offset, scale, top⟩).round s.config.precision) :=
    (UniqueTable.shows_reshape _ _).mpr ((UniqueTable.shows_reshape _ _).mpr shown)
  rw [← Diagram.edge_under, ← Diagram.edge_round, ← Diagram.supportSize_round s.config.precision]
  exact below shown' (by simpa using ordered)
    ((Diagram.normal_rescale normal offset positive).round _)
    fun bit mem => within bit (by simpa using mem)

theorem supportSize_test {place skipped : Nat} {offset scale : Rat} {bit : Bit}
    {low high : Diagram Rat} (sorted : bits.Pairwise fun bit later => bit.id < later.id)
    (found : (bits.drop position).findIdx? (· == bit) = some skipped)
    (ordered : (Diagram.test place offset scale bit low high).Ordered) (tolerance : Rat) :
    (Diagram.test place offset scale bit low high).supportSize tolerance (bits.drop position) =
      ((low.under ⟨offset, scale, ⟨place + 1⟩⟩).supportSize tolerance
          (bits.drop (position + skipped + 1)) +
        (high.under ⟨offset, scale, ⟨place + 1⟩⟩).supportSize tolerance
          (bits.drop (position + skipped + 1))) <<< skipped := by
  have remaining := sorted.drop (i := position)
  have length : ((bits.drop position).take skipped).length = skipped :=
    List.length_take_of_le (List.findIdx?_eq_some_iff_findIdx_eq.mp found).1.le
  rw [drop_eq_of_findIdx? found] at remaining ⊢
  have distinct := nodup_of_increasing remaining
  obtain ⟨-, behind, ahead⟩ := List.pairwise_append.mp remaining
  obtain ⟨proper, aboveLow, aboveHigh, lowOrdered, highOrdered⟩ := id ordered
  have free (earlier : Bit) (skips : earlier ∈ (bits.drop position).take skipped) :
      earlier ∉ (Diagram.test place offset scale bit low high).bits := by
    refine ordered.notMem_bits_of_id_lt ?_
    rw [Diagram.level, proper.level_eq]
    exact ahead earlier skips bit (.head _)
  have chooses (a : Bit → Bool) :
      (Diagram.test place offset scale bit low high).value a =
        if a bit then (high.under ⟨offset, scale, ⟨place + 1⟩⟩).value a
        else (low.under ⟨offset, scale, ⟨place + 1⟩⟩).value a := by
    rw [Diagram.value_test, Diagram.value_under, Diagram.value_under]
    split <;> rfl
  rw [Diagram.supportSize_append distinct free, length,
    Diagram.supportSize_cons (List.nodup_cons.mp (List.nodup_append.mp distinct).2.1).1 chooses
      (by simpa using lowOrdered.notMem_bits aboveLow)
      (by simpa using highOrdered.notMem_bits aboveHigh)]

theorem countEdge_counts (sorted : bits.Pairwise fun bit later => bit.id < later.id)
    (shown : s.nodes.Shows d) (ordered : d.Ordered) (normal : d.Normal)
    (within : ∀ bit ∈ d.bits, bit ∈ bits.drop position) :
    s.Counts bits (s.countEdge bits position d.edge)
      (d.supportSize s.config.tolerance (bits.drop position)) := by
  -- on the bits that are left, since the diagrams counted below are not parts of this one
  induction size : bits.length - position using Nat.strong_induction_on
    generalizing position d with
  | _ size' ih =>
    subst size
    rw [countEdge]
    split
    · next outside =>
      rw [Diagram.supportSize_of_bounds normal (nodup_of_increasing sorted.drop) outside,
        List.length_drop]
      exact .pure _
    next inside =>
    cases d with
    | constant v =>
      rw [Diagram.supportSize_constant (v := v) inside]
      exact .pure 0
    | test place offset scale bit low high =>
      refine Counts.lookup shown (.read (node_of_shows shown) ?_)
      obtain ⟨here, withinLow, withinHigh⟩ := Diagram.forall_mem_bits_test.mp within
      dsimp only
      split
      · next missed => exact absurd missed (ne_none_of_mem here)
      · next skipped found =>
        have sizes := supportSize_test sorted found ordered s.config.tolerance
        obtain ⟨proper, aboveLow, aboveHigh, lowOrdered, highOrdered⟩ := ordered
        have positive := normal.scale_pos
        have branch {d : Diagram Rat} (shown : s.nodes.Shows d) (ordered : d.Ordered)
            (normal : d.Normal) (within : ∀ later ∈ d.bits, later ∈ bits.drop position)
            (above : bit.level < d.level) :=
          branch_counts
            (fun shown ordered normal within =>
              ih _ (left_lt_of_findIdx? found) shown ordered normal within rfl)
            shown ordered normal (fun later mem => mem_left_of_lt sorted found (within later mem)
              (ordered.id_lt proper above mem)) offset positive ⟨place + 1⟩
        rw [sizes]
        refine .bind (branch shown.2.1 lowOrdered normal.2.1 withinLow aboveLow) ?_
        refine .bind (branch shown.2.2 highOrdered normal.2.2.1 withinHigh aboveHigh) ?_
        rw [Nat.add_sub_cancel_left]
        exact .memoized shown sizes.symm

/-! ### Live diagrams -/

theorem RootShows.countNonzero_eq {f : Root} (shown : s.RootShows f d) (ordered : d.Ordered)
    (normal : d.Normal) (within : ∀ bit ∈ d.bits, bit ∈ bits) :
    s.countNonzero f bits = .ok (d.supportSize s.config.tolerance bits) := by
  obtain ⟨sorted, increasing, listed, run⟩ := shown.countNonzero_run bits
  have same : sorted.toFinset = bits.toFinset := by
    ext bit
    rw [List.mem_toFinset, List.mem_toFinset, listed]
  have counts : s.Counts sorted (s.countEdge sorted 0 d.edge)
      (d.supportSize s.config.tolerance sorted) :=
    countEdge_counts increasing shown.2 ordered normal fun bit mem =>
      (listed bit).mpr (within bit mem)
  obtain ⟨memo, counted, -⟩ := counts ∅ fun _ _ _ _ found => by
    rw [Std.TreeMap.getElem?_emptyc] at found
    cases found
  rw [run, counted, Diagram.supportSize, same]
  rfl

/-- On every run over exact numbers, at any tolerance, the assignments at which a live diagram is
away from zero are counted, over any list that has all its bits: in any order, with repetitions and
with bits that the diagram does not test. -/
theorem countNonzero_counts (reachable : Reachable config s) {f : Root}
    (live : s.roots.isOccupied f.index = true) :
    ∃ used, s.bitsUsed f = .ok used ∧ ∀ bits : List Bit, (∀ bit ∈ used, bit ∈ bits) →
      ∃ F : ({bit // bit ∈ bits} → Bool) → Rat,
        (∀ a, s.evaluate f (.over a) = .ok (some (F a))) ∧
        s.countNonzero f bits = .ok (Fintype.card {a // config.tolerance < |F a|}) := by
  have sound : s.Sound (Reading.normal reachable.tolerable) := reachable.sound
  obtain ⟨d, shown, keeps⟩ := sound.rootShows live
  obtain ⟨used, run, mem⟩ := shown.mem_bitsUsed
  refine ⟨used, run, fun bits listed => ?_⟩
  have within (bit : Bit) (tested : bit ∈ d.bits) : bit ∈ bits :=
    listed bit ((mem bit).mpr tested)
  refine ⟨fun a => d.value (extended a), fun a => ?_, ?_⟩
  · exact shown.evaluate_covered keeps.ordered fun bit tested => over_of_mem a (within bit tested)
  · rw [shown.countNonzero_eq keeps.ordered keeps.holds within, Diagram.supportSize,
      card_supportOf_eq, sound.config_eq]

theorem countNonzero_counts_nearTrees :
    let s := nearTrees (1 / 10)
    let bits : List Bit := [⟨2⟩, ⟨3⟩, ⟨1⟩, ⟨2⟩]
    Reachable { StoreConfig.exact with tolerance := 1 / 10 } s ∧
    s.roots.isOccupied 1 = true ∧ s.bitsUsed ⟨1⟩ = .ok [⟨1⟩, ⟨2⟩] ∧
    s.countNonzero ⟨1⟩ bits = .ok 6 ∧
    ∃ F : ({bit // bit ∈ bits} → Bool) → Rat,
      (∀ a, s.evaluate ⟨1⟩ (.over a) = .ok (some (F a))) ∧
      s.countNonzero ⟨1⟩ bits = .ok (Fintype.card {a // (1 / 10 : Rat) < |F a|}) := by
  intro s bits
  have reachable : Reachable { StoreConfig.exact with tolerance := 1 / 10 } (nearTrees (1 / 10)) :=
    reachable_nearTrees (by decide +kernel)
  have live : (nearTrees (1 / 10)).roots.isOccupied 1 = true := by decide +kernel
  have tested : (nearTrees (1 / 10)).bitsUsed ⟨1⟩ = .ok [⟨1⟩, ⟨2⟩] := by cbv
  refine ⟨reachable, live, tested, by decide +kernel, ?_⟩
  obtain ⟨used, run, counted⟩ := countNonzero_counts reachable (f := ⟨1⟩) live
  obtain rfl := Except.ok.inj (tested.symm.trans run)
  exact counted bits (by decide)

end Store

end BayesDiagram
