import BayesDiagram.Proofs.Exact.NoisyMax

/-! Compiled tables as probabilities. A table compiled by enumeration has probabilities in every
row. One compiled as noisy-max has the steps of its closed form, which are probabilities where the
rows of the table have that form, but not in every valid table. -/
namespace BayesDiagram

theorem Encoding.exists_decodes {e : Encoding} (sound : e.Sound) {names : List String}
    {values : List Nat} (nodup : names.Nodup)
    (encoded : ∀ name ∈ names, ∃ b, e.block? name = some b)
    (below : List.Forall₂ (fun name value => value < e.arityOf name) names values) :
    ∃ assignment, e.Assigned assignment names ∧ e.Decodes assignment names values := by
  let v (name : String) : Nat := values.getD (names.idxOf name) 0
  have read : names.map v = values := by
    refine List.ext_getElem (by rw [List.length_map, below.length_eq]) fun i bound bound' => ?_
    rw [List.length_map] at bound
    simp [v, nodup.idxOf_getElem i bound, bound']
  rw [← read, List.forall₂_map_right_iff, List.forall₂_same] at below
  let assignment : Assignment := fun bit => some (e.code v bit)
  have assigned : e.Assigned assignment names := fun _ _ bit _ => ⟨e.code v bit, rfl⟩
  have spelled : (names.map fun name => ofDigits ((e.bitsOf name).map assignment.total)) =
      names.map v := List.map_congr_left fun name mem =>
    ofDigits_code sound (Nat.lt_of_lt_of_le (below name mem) (sound.arityOf_le_codes name))
  refine ⟨assignment, assigned, ?_⟩
  rw [← read, ← spelled]
  exact decodes_total encoded assigned

namespace ConditionalTable

variable (t : ConditionalTable Rat)

def given : Strategy → List Nat → Nat → Rat
  | .enumeration, parents, head => t.entry (head :: parents)
  | .noisyMax, parents, head => t.noisyMaxAt parents head

variable {t}

theorem sum_noisyMaxAt (parents : List Nat) (count : Nat) :
    ∑ head ∈ Finset.range count, t.noisyMaxAt parents head =
      before (t.noisyMaxUpTo parents) count := by
  induction count with
  | zero => rfl
  | succ count ih =>
    rw [Finset.sum_range_succ, ih, noisyMaxAt, add_sub_cancel]
    rfl

end ConditionalTable

/-- The steps of the closed form are probabilities where it never falls, nor rises by more than one,
and ends near one. -/
theorem Network.isRow_noisyMaxAt_iff {n : Network Rat} {t : ConditionalTable Rat}
    {parents : List Nat} :
    let F := t.noisyMaxUpTo parents
    n.IsRow t parents (t.noisyMaxAt parents) ↔
      (∀ head < n.arityOf t.head, before F head ≤ F head ∧ F head ≤ before F head + 1) ∧
        ∀ head, head :: parents ∈ t.entries →
          |before F (n.arityOf t.head) - 1| ≤ rowTolerance := by
  intro F
  have bounds (head : Nat) : 0 ≤ t.noisyMaxAt parents head ∧ t.noisyMaxAt parents head ≤ 1 ↔
      before F head ≤ F head ∧ F head ≤ before F head + 1 := by
    rw [ConditionalTable.noisyMaxAt, sub_nonneg, sub_le_iff_le_add']
  constructor
  · rintro ⟨inUnit, total⟩
    refine ⟨fun head below => (bounds head).mp (inUnit head below), fun head present => ?_⟩
    rw [← ConditionalTable.sum_noisyMaxAt]
    exact total head present
  · rintro ⟨rises, ends⟩
    refine ⟨fun head below => (bounds head).mpr (rises head below), fun head present => ?_⟩
    rw [ConditionalTable.sum_noisyMaxAt]
    exact ends head present

namespace Compiler

variable {config : StoreConfig Rat} {noTolerance : config.tolerance = 0} {c : Compiler Rat}
  {t : ConditionalTable Rat} {w : Workspace Rat Rat} {a : Bit → Bool}

theorem Encodes.exists_decodes (encodes : c.Encodes t) (sound : c.encoding.Sound)
    (accepts : c.Accepts t) {values : List Nat} (inside : c.network.InDomain t.scope values) :
    ∃ assignment, c.encoding.Assigned assignment t.scope ∧
      c.encoding.Decodes assignment t.scope values := by
  refine Encoding.exists_decodes sound accepts.nodup accepts.encoded ?_
  have arities (name : String) (mem : name ∈ t.scope) :
      c.network.arityOf name = c.encoding.arityOf name := by
    obtain ⟨b, found, same⟩ := encodes name mem
    rw [Encoding.arityOf_of_block? found, same]
  rw [Network.InDomain, List.forall₂_iff_zip] at inside
  exact List.forall₂_iff_zip.mpr ⟨inside.1, fun pair =>
    arities _ (List.of_mem_zip pair).1 ▸ inside.2 pair⟩

variable (noTolerance) in
theorem tableOf_eq_given (valid : (c.network.checkTable t : Except (Error Rat) Unit) = .ok ())
    (inside : c.network.InDomain t.scope (c.spelled t.head a :: t.parents.map (c.spelled · a)))
    (strategy : Strategy) :
    tableOf (Meaning.pointwise noTolerance) c t strategy a =
      t.given strategy (t.parents.map (c.spelled · a)) (c.spelled t.head a) := by
  cases strategy with
  | enumeration => exact enumeration_pointwise
  | noisyMax =>
    rw [noisyMax_pointwise noTolerance (Network.leak_nonneg valid), if_pos inside,
      ConditionalTable.given]

theorem compile_evaluates (sound : w.store.Sound (Reading.exact noTolerance))
    (encoding : c.encoding.Sound) (accepts : c.Accepts t)
    (valid : (c.network.checkTable t : Except (Error Rat) Unit) = .ok ()) :
    ∃ compiled w', c.compile t w = .ok compiled w' ∧
      ∀ head parents, c.network.InDomain t.scope (head :: parents) →
      ∀ assignment, c.encoding.Assigned assignment t.scope →
        c.encoding.Decodes assignment t.scope (head :: parents) →
        w'.store.evaluate compiled.root assignment =
          .ok (some (t.given t.strategy parents head)) := by
  rcases compile_spec (Meaning.pointwise noTolerance) (t := t) sound.ledger encoding with
    ⟨compiled, w', run, ledger, -, isCompiled⟩ | ⟨refused, -⟩
  · obtain ⟨d, shown, bits, means⟩ := isCompiled.represents
    refine ⟨compiled, w', run, fun head parents inside assignment assigned decodes => ?_⟩
    obtain ⟨decodes', evaluates⟩ := evaluate_decoded ledger.sound shown bits accepts assigned
    obtain ⟨rfl, rfl⟩ := List.cons.inj (decodes.unique decodes')
    rw [evaluates, ← tableOf_eq_given noTolerance valid inside, ← means]
    rfl
  · exact absurd accepts refused

/-- In every store on a run, a table of a validated network over encoded variables is compiled.
Its rows are probabilities if they were enumerated, or if their sums have the closed form. In
general noisy-max gives the steps of the closed form, which are probabilities just where it never
falls, nor rises by more than one, and ends near one. -/
theorem compile_rows (noTolerance : config.tolerance = 0)
    (reachable : Workspace.Reachable config w) (allocated : c.encoding.Allocated)
    (validated : (c.network.validate : Except (Error Rat) Unit) = .ok ()) {name : String}
    (found : c.network.table? name = some t) (encodes : c.Encodes t) :
    ∃ compiled w', c.compile t w = .ok compiled w' ∧
      ∀ parents, c.network.InDomain t.parents parents → ∃ p : Nat → Rat,
        (∀ head < c.network.arityOf t.head,
          (∃ assignment, c.encoding.Assigned assignment t.scope ∧
            c.encoding.Decodes assignment t.scope (head :: parents)) ∧
          ∀ assignment, c.encoding.Assigned assignment t.scope →
            c.encoding.Decodes assignment t.scope (head :: parents) →
            w'.store.evaluate compiled.root assignment = .ok (some (p head))) ∧
        (t.strategy = .enumeration ∨
            (∀ i < c.network.arityOf t.head, t.upTo parents i = t.noisyMaxUpTo parents i) →
          c.network.IsRow t parents p) ∧
        (t.strategy = .noisyMax →
          let F := t.noisyMaxUpTo parents
          (∀ head < c.network.arityOf t.head, p head = F head - before F head) ∧
          (c.network.IsRow t parents p ↔
            (∀ head < c.network.arityOf t.head,
              before F head ≤ F head ∧ F head ≤ before F head + 1) ∧
            ∀ head, head :: parents ∈ t.entries →
              |before F (c.network.arityOf t.head) - 1| ≤ Network.rowTolerance)) := by
  have sound : w.store.Sound (Reading.exact noTolerance) := reachable.sound
  have valid := (Network.validate_eq_ok validated).1 name t found
  have accepts := encodes.accepts valid
  obtain ⟨compiled, w', run, evaluates⟩ :=
    compile_evaluates sound allocated.sound accepts valid
  refine ⟨compiled, w', run, fun parents inside => ⟨t.given t.strategy parents,
    fun head below => ?_, fun agrees => ?_, fun noisy => ?_⟩⟩
  · have within := inDomain_scope.mpr ⟨below, inside⟩
    exact ⟨encodes.exists_decodes allocated.sound accepts within, evaluates head parents within⟩
  · refine (Network.isRow_entry valid parents).congr fun head below => ?_
    cases strategy : t.strategy with
    | enumeration => rfl
    | noisyMax =>
      rcases agrees with enumerated | closed
      · rw [strategy] at enumerated
        cases enumerated
      · exact ConditionalTable.noisyMaxAt_eq_entry fun j le =>
          closed j (Nat.lt_of_le_of_lt le below)
  · rw [noisy]
    exact ⟨fun _ _ => rfl, Network.isRow_noisyMaxAt_iff⟩

theorem validate_alarm : (alarm.network.validate : Except (Error Rat) Unit) = .ok () :=
  eq_ok_of_isOk (by decide +kernel)

theorem compile_rows_alarm : ∃ compiled w' p,
    alarm.compile .alarm (⟨Store.exact, #[]⟩ : Workspace Rat Rat) = .ok compiled w' ∧
    alarm.network.IsRow .alarm [2, 1] p ∧ p 1 = 9 / 10 ∧
    w'.store.evaluate compiled.root (fun bit => some (bit.id != 1)) = .ok (some (p 1)) := by
  have created : Workspace.Reachable .exact (⟨Store.exact, #[]⟩ : Workspace Rat Rat) := .created rfl
  have inside : alarm.network.InDomain ["Fire", "Burglar"] [2, 1] := by decide +kernel
  have found : alarm.network.table? "Alarm" = some .alarm := rfl
  obtain ⟨compiled, w', run, rows⟩ :=
    compile_rows rfl created allocated_alarm validate_alarm found encodes_alarm
  obtain ⟨p, evaluates, row, steps⟩ := rows [2, 1] inside
  refine ⟨compiled, w', p, run, row (.inr fun _ => closed_alarm inside), ?_, ?_⟩
  · exact ((steps rfl).1 1 (by decide)).trans (by decide +kernel)
  · exact (evaluates 1 (by decide)).2 _ (fun _ _ _ _ => ⟨_, rfl⟩)
      (.cons rfl (.cons rfl (.cons rfl .nil)))

end Compiler

/-! ### Causes that do not act on their own -/

namespace ConditionalTable

def switch (name : String) : ConditionalTable Rat where
  head := name
  parents := []
  entries := .ofList [([0], (1 / 2 : Rat)), ([1], 1 / 2)]
  tag := none

def light : ConditionalTable Rat where
  head := "Light"
  parents := ["Left", "Right"]
  entries := .ofList
    [([0, 0, 0], (1 / 2 : Rat)), ([1, 0, 0], 1 / 2), ([0, 0, 1], 1), ([0, 1, 0], 1), ([0, 1, 1], 1)]
  tag := some "max"

def fan : ConditionalTable Rat where
  head := "Fan"
  parents := ["Left"]
  entries := .ofList [([0, 1], (3 / 10 : Rat)), ([1, 1], 7 / 10)]
  tag := some "max"

end ConditionalTable

namespace Compiler

def switches : Compiler Rat where
  network :=
    let declared : Network Rat :=
      { declared := [⟨"Left", ["down", "up"]⟩, ⟨"Right", ["down", "up"]⟩, ⟨"Light", ["on", "off"]⟩,
          ⟨"Fan", ["on", "off"]⟩] }
    [.switch "Left", .switch "Right", .light, .fan].foldl Network.attach declared
  encoding :=
    let numbered : Encoding :=
      { next := 5
        ownedBits := [⟨"Left", 0, ⟨1⟩⟩, ⟨"Right", 0, ⟨2⟩⟩, ⟨"Light", 0, ⟨3⟩⟩, ⟨"Fan", 0, ⟨4⟩⟩] }
    let causes := (numbered.record "Left" 2 [⟨1⟩]).record "Right" 2 [⟨2⟩]
    (causes.record "Light" 2 [⟨3⟩]).record "Fan" 2 [⟨4⟩]

theorem allocated_switches : switches.encoding.Allocated :=
  Encoding.Allocated.empty.foldlM
    [("Left", 2), ("Right", 2), ("Light", 2), ("Fan", 2)] rfl

/-- A valid table for noisy-max may get a value beyond one, and a row with an entry may get none. -/
theorem noisyMax_not_row :
    (switches.network.validate : Except (Error Rat) Unit) = .ok () ∧
    switches.encoding.Allocated ∧
    (switches.network.table? "Light" = some .light ∧ switches.Encodes .light ∧
      ∃ compiled w' assignment,
        switches.compile .light (⟨Store.exact, #[]⟩ : Workspace Rat Rat) = .ok compiled w' ∧
        switches.encoding.Decodes assignment ["Light", "Left", "Right"] [0, 1, 1] ∧
        w'.store.evaluate compiled.root assignment = .ok (some 2)) ∧
    (switches.network.table? "Fan" = some .fan ∧ switches.Encodes .fan ∧
      [0, 1] ∈ ConditionalTable.fan.entries ∧
      ∃ compiled w' on off,
        switches.compile .fan (⟨Store.exact, #[]⟩ : Workspace Rat Rat) = .ok compiled w' ∧
        switches.encoding.Decodes on ["Fan", "Left"] [0, 1] ∧
        w'.store.evaluate compiled.root on = .ok (some 0) ∧
        switches.encoding.Decodes off ["Fan", "Left"] [1, 1] ∧
        w'.store.evaluate compiled.root off = .ok (some 0)) := by
  have validated : (switches.network.validate : Except (Error Rat) Unit) = .ok () :=
    eq_ok_of_isOk (by decide +kernel)
  have created : Store.create .exact = .ok Store.exact := rfl
  have noTolerance : StoreConfig.exact.tolerance = 0 := rfl
  have sound : Store.exact.Sound (Reading.exact noTolerance) := Store.create_sound created
  have light : switches.network.table? "Light" = some .light := rfl
  have fan : switches.network.table? "Fan" = some .fan := rfl
  have lightEncodes : switches.Encodes .light :=
    List.forall_mem_cons.mpr ⟨⟨_, rfl, rfl⟩, List.forall_mem_cons.mpr ⟨⟨_, rfl, rfl⟩,
      List.forall_mem_singleton.mpr ⟨_, rfl, rfl⟩⟩⟩
  have fanEncodes : switches.Encodes .fan :=
    List.forall_mem_cons.mpr ⟨⟨_, rfl, rfl⟩, List.forall_mem_singleton.mpr ⟨_, rfl, rfl⟩⟩
  have valid := (Network.validate_eq_ok validated).1
  refine ⟨validated, allocated_switches, ⟨light, lightEncodes, ?_⟩, fan, fanEncodes,
    by decide +kernel, ?_⟩
  · obtain ⟨compiled, w', run, evaluates⟩ := compile_evaluates (w := ⟨Store.exact, #[]⟩) sound
      allocated_switches.sound (lightEncodes.accepts (valid _ _ light)) (valid _ _ light)
    have decodes : switches.encoding.Decodes (fun bit => some (bit.id != 3))
      ["Light", "Left", "Right"] [0, 1, 1] := .cons rfl (.cons rfl (.cons rfl .nil))
    refine ⟨compiled, w', _, run, decodes, ?_⟩
    rw [evaluates 0 [1, 1] (by decide +kernel) _ (fun _ _ _ _ => ⟨_, rfl⟩) decodes]
    decide +kernel
  · obtain ⟨compiled, w', run, evaluates⟩ := compile_evaluates (w := ⟨Store.exact, #[]⟩) sound
      allocated_switches.sound (fanEncodes.accepts (valid _ _ fan)) (valid _ _ fan)
    have decodesOn : switches.encoding.Decodes (fun bit => some (bit.id == 1)) ["Fan", "Left"]
      [0, 1] := .cons rfl (.cons rfl .nil)
    have decodesOff : switches.encoding.Decodes (fun _ => some true) ["Fan", "Left"] [1, 1] :=
      .cons rfl (.cons rfl .nil)
    refine ⟨compiled, w', _, _, run, decodesOn, ?_, decodesOff, ?_⟩
    · rw [evaluates 0 [1] (by decide +kernel) _ (fun _ _ _ _ => ⟨_, rfl⟩) decodesOn]
      decide +kernel
    · rw [evaluates 1 [1] (by decide +kernel) _ (fun _ _ _ _ => ⟨_, rfl⟩) decodesOff]
      decide +kernel

end Compiler

end BayesDiagram
