import BayesDiagram.Number.DoubleDouble
import BayesDiagram.Proofs.Diagram.Safety
import BayesDiagram.Proofs.Diagram.TestedBits

/-! The bits that diagrams can use. Callers can name the bit of every 32-bit identifier but zero,
and a bit has its identifier for its level; but the greatest identifier is the level of the terminal
too. In every state of a run on which any bits may be named, a bit above the terminal can be tested
and its test combined with every live diagram. The last bit is kept out: each request to test it is
refused, the store stays sound, and no diagram tests it. A combination with a constant could not
tell a test of it from another constant. -/
namespace BayesDiagram

/-! ### Levels -/

namespace Bit

variable {bit : Bit}

theorem proper_iff_above_terminal : bit.Proper ↔ bit.level < terminal.level :=
  ⟨Proper.level_lt, proper_of_level_lt⟩

theorem not_above_of_improper (improper : ¬bit.Proper) {level : Nat} (bound : level ≤ maxId) :
    ¬bit.level < level := fun above =>
  improper (proper_of_level_lt (Nat.lt_of_lt_of_le above bound))

theorem make_eq_ok {id : Nat} : make id = .ok bit ↔ id ≠ 0 ∧ bit = ⟨id⟩ := by
  rw [make]
  split
  · next zero => simp [zero]
  · next nonzero => simp [nonzero, eq_comm]

theorem proper_iff_of_make {id : UInt32} (made : make id.toNat = .ok bit) :
    bit.Proper ↔ id ≠ 4294967295 := by
  obtain ⟨nonzero, rfl⟩ := make_eq_ok.mp made
  have last : id ≠ 4294967295 ↔ id.toNat ≠ maxId := UInt32.toNat_inj.not.symm
  have bound : id.toNat < maxId + 1 := id.toNat_lt
  rw [last]
  constructor
  · exact fun proper => Nat.ne_of_lt proper.lt_maxId
  · intro other
    refine ⟨nonzero, ?_⟩
    show id.toNat < maxId
    omega

end Bit

/-! ### Requests -/

namespace Request

variable {σ κ : Type}

def bits : Request σ → Finset Bit
  | test bit _ _ | branch bit _ _ => {bit}
  | ofOrderedTree tree | ofUnorderedTree tree => tree.bits
  | _ => ∅

def Live (s : Store σ κ) : Request σ → Prop
  | branch _ f g | apply f g _ =>
    s.roots.isOccupied f.index = true ∧ s.roots.isOccupied g.index = true
  | multiply f _ | restrict f _ _ | marginalize f _ _ | pin f | unpin f =>
    s.roots.isOccupied f.index = true
  | _ => True

theorem allowed_iff {s : Store σ κ} {request : Request σ} :
    request.Allowed s ↔ request.Live s ∧ ∀ bit ∈ request.bits, bit.Proper := by
  cases request <;> simp [Allowed, Live, bits, and_comm]

end Request

namespace Store

variable {σ κ : Type} [Scalar σ] [Coefficient σ κ] {config : StoreConfig σ} {R : Reading σ κ config}
  {s s' : Store σ κ} {bit : Bit} {low high : Diagram κ}

/-! ### Refusals -/

theorem Refuses.bind {α β : Type} {step : StoreM σ κ α} (refused : s.Refuses R step)
    (next : α → StoreM σ κ β) : s.Refuses R (step >>= next) := by
  obtain ⟨fault, s', run, spec⟩ := refused
  exact ⟨fault, s', StoreM.bind_of_error run, spec⟩

theorem Refuses.map {α β : Type} {step : StoreM σ κ α} (refused : s.Refuses R step)
    (answer : α → β) : s.Refuses R (answer <$> step) := by
  obtain ⟨fault, s', run, spec⟩ := refused
  refine ⟨fault, s', ?_, spec⟩
  simp only [Functor.map, EStateM.map, run]

theorem Refuses.after {α β : Type} {step : StoreM σ κ α} {next : α → StoreM σ κ β} {answer : α}
    (run : step s = .ok answer s') (grows : s.Grows s') (refused : s'.Refuses R (next answer)) :
    s.Refuses R (step >>= next) := by
  obtain ⟨fault, s'', run', grows', sound⟩ := refused
  exact ⟨fault, s'', (StoreM.bind_of_ok run).trans run', grows.trans grows', sound⟩

theorem Refuses.atOnce {α : Type} {step : StoreM σ κ α} {fault : Fault} (sound : s.Sound R)
    (run : step s = .error fault s) : s.Refuses R step :=
  ⟨fault, s, run, .refl s, sound⟩

theorem makeNode_constants_refused (improper : ¬bit.Proper) (low high : κ) :
    makeNode bit (.constant low) (.constant high) s = .error .lowNotBelow s := by
  have top : s.bitOf (.constant low) = .ok .terminal := rfl
  rw [makeNode, StoreM.bind_of_ok (StoreM.inspect_of_ok top), Bit.level_terminal,
    if_neg (Bit.not_above_of_improper improper (Nat.le_refl _))]
  rfl

theorem test_refused (improper : ¬bit.Proper) (low high : σ) :
    (test bit low high : StoreM σ κ Root) s = .error .lowNotBelow s :=
  StoreM.bind_of_error (makeNode_constants_refused improper _ _)

theorem branchEdge_refused (improper : ¬bit.Proper) (lowShown : s.nodes.Shows low)
    (highShown : s.nodes.Shows high) (ordered : low.Ordered) :
    branchEdge bit low.edge high.edge s = .error (.mustPrecedeChildren bit.id) s := by
  rw [branchEdge_run lowShown highShown, if_neg]
  exact fun above => Bit.not_above_of_improper improper ordered.level_le_maxId above.1

theorem branch_refused (sound : s.Sound R) (improper : ¬bit.Proper) {f g : Root}
    (lowLive : s.roots.isOccupied f.index = true) (highLive : s.roots.isOccupied g.index = true) :
    branch bit f g s = .error (.mustPrecedeChildren bit.id) s := by
  obtain ⟨low, lowShown, keepsLow⟩ := sound.rootShows lowLive
  obtain ⟨high, highShown, -⟩ := sound.rootShows highLive
  rw [branch, StoreM.bind_of_ok (StoreM.inspect_of_ok lowShown.edge_eq),
    StoreM.bind_of_ok (StoreM.inspect_of_ok highShown.edge_eq)]
  exact StoreM.bind_of_error
    (branchEdge_refused improper lowShown.2 highShown.2 keepsLow.ordered)

/-! ### Trees -/

/-- A builder that joins the edges of the two branches refuses the trees with a bit that is not
proper, if it builds or refuses all other trees and the joining refuses such a bit. -/
theorem builder_refuses {build : DecisionTree σ → StoreM σ κ (Edge κ)}
    (join : Bit → Edge κ → Edge κ → StoreM σ κ (Edge κ))
    (joins : ∀ bit low high, build (.branch bit low high) = (do
      let lower ← build low
      let upper ← build high
      join bit lower upper))
    (builds : ∀ {s : Store σ κ} {tree : DecisionTree σ}, s.Sound R →
      (∀ bit ∈ tree.bits, bit.Proper) →
      (∃ meaning, s.Yields R (build tree) tree.bits meaning) ∨ s.Refuses R (build tree))
    (refuses : ∀ {s : Store σ κ} {bit : Bit} {low high : Diagram κ}, s.Sound R → ¬bit.Proper →
      R.Keeps s.nodes low → R.Keeps s.nodes high → s.Refuses R (join bit low.edge high.edge))
    (sound : s.Sound R) {tree : DecisionTree σ} (improper : ¬∀ bit ∈ tree.bits, bit.Proper) :
    s.Refuses R (build tree) := by
  -- A refusal ends the build wherever it comes from; if both branches of a test are built, their
  -- bits are proper, and the bit at fault is that of the test.
  induction tree generalizing s with
  | leaf value => exact absurd (fun _ mem => absurd mem (Finset.notMem_empty _)) improper
  | branch bit low high ihLow ihHigh =>
    rw [joins]
    by_cases properLow : ∀ bit ∈ low.bits, bit.Proper
    · rcases builds sound properLow with
        ⟨-, lower, s₁, runLow, grows₁, sound₁, keepsLow, -⟩ | refused
      · refine .after runLow grows₁ ?_
        by_cases properHigh : ∀ bit ∈ high.bits, bit.Proper
        · rcases builds sound₁ properHigh with
            ⟨-, upper, s₂, runHigh, grows₂, sound₂, keepsHigh, -⟩ | refused
          · refine .after runHigh grows₂
              (refuses sound₂ (fun here => improper ?_) (keepsLow.mono grows₂.nodes) keepsHigh)
            exact DecisionTree.forall_mem_bits_branch.mpr ⟨here, properLow, properHigh⟩
          · exact refused.bind _
        · exact (ihHigh sound₁ properHigh).bind _
      · exact refused.bind _
    · exact (ihLow sound properLow).bind _

theorem ofOrderedTree_refused (sound : s.Sound R) {tree : DecisionTree σ}
    (improper : ¬∀ bit ∈ tree.bits, bit.Proper) :
    s.Refuses R (ofOrderedTree tree : StoreM σ κ Root) := by
  refine (builder_refuses branchEdge (fun _ _ _ => rfl) ?_ ?_ sound improper).bind _
  · exact fun sound proper => (orderedEdge_spec sound proper).imp (⟨_, ·⟩) And.right
  · exact fun sound improper keepsLow keepsHigh => .atOnce sound
      (branchEdge_refused improper keepsLow.shows keepsHigh.shows keepsLow.ordered)

theorem ofUnorderedTree_refused (sound : s.Sound R) {tree : DecisionTree σ}
    (improper : ¬∀ bit ∈ tree.bits, bit.Proper) :
    s.Refuses R (ofUnorderedTree tree : StoreM σ κ Root) := by
  refine (builder_refuses _ (fun _ _ _ => rfl) ?_ ?_ sound improper).bind _
  · exact fun sound proper => .inl ⟨_, unorderedEdge_spec sound proper⟩
  · exact fun sound improper _ _ =>
      (Refuses.atOnce sound (makeNode_constants_refused improper 1 0)).bind _

/-! ### Runs -/

theorem perform_refused (sound : s.Sound R) {request : Request σ} (live : request.Live s)
    (mem : bit ∈ request.bits) (improper : ¬bit.Proper) : s.Refuses R request.perform := by
  cases request with
  | test top low high =>
    obtain rfl := Finset.mem_singleton.mp mem
    exact (Refuses.atOnce sound (test_refused improper low high)).map _
  | branch top f g =>
    obtain rfl := Finset.mem_singleton.mp mem
    exact (Refuses.atOnce sound (branch_refused sound improper live.1 live.2)).map _
  | ofOrderedTree tree =>
    exact (ofOrderedTree_refused sound fun proper => improper (proper bit mem)).map _
  | ofUnorderedTree tree =>
    exact (ofUnorderedTree_refused sound fun proper => improper (proper bit mem)).map _
  | _ => exact absurd mem (Finset.notMem_empty bit)

theorem after_sound_of_live (sound : s.Sound R) {request : Request σ} (live : request.Live s) :
    (request.after s).Sound R := by
  by_cases proper : ∀ bit ∈ request.bits, bit.Proper
  · exact after_sound sound (Request.allowed_iff.mpr ⟨live, proper⟩)
  · simp only [not_forall] at proper
    obtain ⟨bit, mem, improper⟩ := proper
    obtain ⟨fault, s', run, -, sound'⟩ := perform_refused sound live mem improper
    rw [Request.after, run]
    exact sound'

/-- The stores on the runs on which any bits are named. -/
inductive Visited (config : StoreConfig σ) : Store σ κ → Prop where
  | created {s : Store σ κ} (new : create config = .ok s) : Visited config s
  | requested {s : Store σ κ} {request : Request σ} (visited : Visited config s)
      (live : request.Live s) : Visited config (request.after s)

theorem Reachable.visited (reachable : Reachable config s) : Visited config s := by
  induction reachable with
  | created new => exact .created new
  | requested _ allowed ih => exact .requested ih (Request.allowed_iff.mp allowed).1

theorem Visited.sound (visited : Visited config s) : s.Sound R := by
  induction visited with
  | created new => exact create_sound new
  | requested _ live ih => exact after_sound_of_live ih live

/-! ### Use -/

/-- A test of the bit ends with a root, the live roots stay live beside it, and it combines with
each of them on either side. -/
structure Usable (s : Store σ κ) (bit : Bit) : Prop where
  tested (low high : σ) : ∃ f s', test bit low high s = .ok f s' ∧
    s'.roots.isOccupied f.index = true ∧
    ∀ g : Root, s.roots.isOccupied g.index = true → s'.roots.isOccupied g.index = true
  combined {low high : σ} {f : Root} {s' : Store σ κ} (run : test bit low high s = .ok f s')
    {g : Root} (live : s'.roots.isOccupied g.index = true) (op : Operator) :
    s'.Builds (apply f g op) ∧ s'.Builds (apply g f op)

/-- A test of the bit is refused before anything changes, every request that is to test it is
refused, and no live diagram tests it. -/
structure KeptOut (s : Store σ κ) (bit : Bit) : Prop where
  rejected (low high : σ) : test bit low high s = .error .lowNotBelow s
  refused {request : Request σ} (live : request.Live s) (named : bit ∈ request.bits) :
    ∃ fault s', request.perform s = .error fault s'
  unused {f : Root} (live : s.roots.isOccupied f.index = true) :
    ∃ used, s.bitsUsed f = .ok used ∧ bit ∉ used

theorem Sound.usable (sound : s.Sound R) (proper : bit.Proper) : s.Usable bit where
  tested low high := by
    obtain ⟨f, d, stored, s', run, grows, -, shown, -⟩ := test_spec sound proper low high
    refine ⟨f, s', run, Option.isSome_iff_exists.mpr ⟨_, shown.1⟩, fun g live => ?_⟩
    obtain ⟨e, kept⟩ := Option.isSome_iff_exists.mp live
    exact Option.isSome_iff_exists.mpr ⟨e, grows.roots _ e kept⟩
  combined {low high f s'} run {g} live op := by
    obtain ⟨f', d, stored, s'', run', -, sound', shown, -⟩ := test_spec sound proper low high
    obtain ⟨rfl, rfl⟩ := EStateM.Result.ok.inj (run.symm.trans run')
    obtain ⟨other, shown', -⟩ := sound'.rootShows live
    exact ⟨(apply_spec sound' shown shown' op).builds, (apply_spec sound' shown' shown op).builds⟩

theorem Sound.keptOut (sound : s.Sound R) (improper : ¬bit.Proper) : s.KeptOut bit where
  rejected := test_refused improper
  refused live named := by
    obtain ⟨fault, s', run, -⟩ := perform_refused sound live named improper
    exact ⟨fault, s', run⟩
  unused live := by
    obtain ⟨d, shown, keeps⟩ := sound.rootShows live
    obtain ⟨used, run, mem⟩ := shown.mem_bitsUsed
    exact ⟨used, run, fun tested => improper (keeps.ordered.proper ((mem bit).mp tested))⟩

/-- In every state of a run on which any bits are named, each bit that a caller can name is above the
terminal and can be used, except for the last one: that is at the level of the terminal and kept
out. -/
theorem usable_unless_last (visited : Visited config s) {id : UInt32}
    (made : Bit.make id.toNat = .ok bit) :
    (id ≠ 4294967295 → bit.level < Bit.terminal.level ∧ s.Usable bit) ∧
      (id = 4294967295 → bit.level = Bit.terminal.level ∧ s.KeptOut bit) := by
  have sound := visited.sound (R := .plain config)
  have proper := Bit.proper_iff_of_make made
  constructor
  · exact fun other => ⟨Bit.proper_iff_above_terminal.mp (proper.mpr other),
      sound.usable (proper.mpr other)⟩
  · rintro rfl
    obtain ⟨-, rfl⟩ := Bit.make_eq_ok.mp made
    exact ⟨rfl, sound.keptOut fun last => proper.mp last rfl⟩

theorem usable_after_refusal :
    let tree : DecisionTree Rat :=
      .branch ⟨4294967295⟩ (.branch ⟨3⟩ (.leaf 0) (.leaf 1)) (.leaf 0)
    let s := (Request.ofUnorderedTree tree).after exactTests
    Visited .exact s ∧ exactTests.nodes.size < s.nodes.size ∧
      Bit.make (4294967294 : UInt32).toNat = .ok ⟨4294967294⟩ ∧
      Bit.make (4294967295 : UInt32).toNat = .ok ⟨4294967295⟩ ∧ s.KeptOut ⟨4294967295⟩ ∧
      ∃ f s', test ⟨4294967294⟩ 0 1 s = .ok f s' ∧ s'.Builds (apply f ⟨1⟩ .sum) := by
  intro tree s
  have visited : Visited .exact s := .requested reachable_exactTests.visited trivial
  have live : s.roots.isOccupied 1 = true := by decide +kernel
  have made : Bit.make (4294967294 : UInt32).toNat = .ok ⟨4294967294⟩ := rfl
  have last : Bit.make (4294967295 : UInt32).toNat = .ok ⟨4294967295⟩ := rfl
  obtain ⟨-, usable⟩ := (usable_unless_last visited made).1 (by decide)
  obtain ⟨-, keptOut⟩ := (usable_unless_last visited last).2 rfl
  obtain ⟨f, s', run, -, kept⟩ := usable.tested 0 1
  exact ⟨visited, by decide +kernel, made, last, keptOut, f, s', run,
    (usable.combined run (kept ⟨1⟩ live) .sum).1⟩

theorem lastBit_refused :
    ∃ s : Store Binary64 DoubleDouble, create .standard = .ok s ∧ Visited .standard s ∧
      Bit.make (4294967295 : UInt32).toNat = .ok ⟨4294967295⟩ ∧
      ¬(⟨4294967295⟩ : Bit).level < Bit.terminal.level ∧
      test ⟨4294967295⟩ 0 1 s = .error .lowNotBelow s :=
  ⟨_, rfl, .created rfl, rfl, by decide,
    test_refused (fun proper => absurd proper.lt_maxId (by decide)) 0 1⟩

end Store

end BayesDiagram
