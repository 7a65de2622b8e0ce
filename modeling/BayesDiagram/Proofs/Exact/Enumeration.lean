import BayesDiagram.Proofs.Exact.Compilation
import BayesDiagram.Proofs.Inference.PinDiscipline
import BayesDiagram.Proofs.Network.RoundTrip

/-! Enumeration. A table compiled by enumeration evaluates to its entry at the values that the bits
of its scope stand for, wherever the blocks of the scope lie, and to zero where one of them holds a
code of no value. -/
namespace BayesDiagram

/-! ### Decoded values -/

namespace Encoding

variable {e : Encoding} {assignment : Assignment} {names : List String} {values values' : List Nat}

def Assigned (e : Encoding) (assignment : Assignment) (names : List String) : Prop :=
  ∀ name ∈ names, ∀ bit ∈ e.bitsOf name, ∃ value, assignment bit = some value

/-- The values of some variables that an assignment of the bits stands for. -/
def Decodes (e : Encoding) (assignment : Assignment) (names : List String)
    (values : List Nat) : Prop :=
  List.Forall₂ (fun name value =>
    (e.decode name assignment : Except (Error Rat) (Option Nat)) = .ok (some value)) names values

theorem Decodes.unique (decodes : e.Decodes assignment names values)
    (decodes' : e.Decodes assignment names values') : values = values' := by
  induction decodes generalizing values' with
  | nil =>
    cases decodes'
    rfl
  | cons here _ ih =>
    cases decodes' with
    | cons here' rest' =>
      rw [here] at here'
      cases here'
      rw [ih rest']

theorem decodes_total (encoded : ∀ name ∈ names, ∃ b, e.block? name = some b)
    (assigned : e.Assigned assignment names) :
    e.Decodes assignment names
      (names.map fun name => ofDigits ((e.bitsOf name).map assignment.total)) := by
  rw [Decodes, List.forall₂_map_right_iff, List.forall₂_same]
  intro name mem
  obtain ⟨b, found⟩ := encoded name mem
  rw [decode, bits_of_block? found]
  show Except.ok _ = Except.ok _
  rw [Assignment.mapM_eq_some (assigned name mem)]
  rfl

end Encoding

def Network.InDomain {σ : Type} (n : Network σ) (names : List String) (values : List Nat) : Prop :=
  List.Forall₂ (fun name value => value < n.arityOf name) names values

instance {σ : Type} (n : Network σ) (names : List String) (values : List Nat) :
    Decidable (n.InDomain names values) :=
  inferInstanceAs (Decidable (List.Forall₂ _ names values))

/-! ### Reading a compiled table -/

namespace Compiler

variable {config : StoreConfig Rat} {noTolerance : config.tolerance = 0} {c : Compiler Rat}
  {t : ConditionalTable Rat} {w : Workspace Rat Rat}

def Encodes {σ : Type} (c : Compiler σ) (t : ConditionalTable σ) : Prop :=
  ∀ name ∈ t.scope, ∃ b, c.encoding.block? name = some b ∧ b.arity = c.network.arityOf name

theorem Encodes.accepts (encodes : c.Encodes t)
    (valid : (c.network.checkTable t : Except (Error Rat) Unit) = .ok ()) : c.Accepts t := by
  obtain ⟨nodup, declared, found, -⟩ := Network.checkTable_eq_ok valid
  exact {
    nodup := nodup
    encoded := fun name mem =>
      let ⟨b, found, _⟩ := encodes name mem
      ⟨b, found⟩
    declared := fun name mem => answer_of_mapM_eq_ok found mem }

theorem compileWith_computes (sound : w.store.Sound (Reading.exact noTolerance))
    (encoding : c.encoding.Sound) (accepts : c.Accepts t) (strategy : Strategy) :
    ∃ f w' d, c.compileWith t strategy w = .ok f w' ∧ w.store.Grows w'.store ∧
      w'.store.Sound (Reading.exact noTolerance) ∧ w'.store.RootShows f d ∧
      d.bits ⊆ c.bitsOfScope t ∧
      ∀ a, d.value a = tableOf (Meaning.pointwise noTolerance) c t strategy a := by
  rcases compileWith_adds (Meaning.pointwise noTolerance) sound encoding strategy with
    ⟨f, w', run, grows, sound', d, shown, bits, means⟩ | ⟨refused, -⟩
  · exact ⟨f, w', d, run, grows, sound', shown, bits, congrFun means⟩
  · exact absurd accepts refused

theorem evaluate_decoded {s : Store Rat Rat} {f : Root} {d : Diagram Rat}
    (sound : s.Sound (Reading.exact noTolerance)) (shown : s.RootShows f d)
    (bits : d.bits ⊆ c.bitsOfScope t) (accepts : c.Accepts t) {assignment : Assignment}
    (assigned : c.encoding.Assigned assignment t.scope) :
    c.encoding.Decodes assignment t.scope (t.scope.map (c.spelled · assignment.total)) ∧
      s.evaluate f assignment = .ok (some (d.value assignment.total)) := by
  refine ⟨Encoding.decodes_total accepts.encoded assigned,
    shown.evaluate_covered (sound.keeps shown).ordered fun bit mem => ?_⟩
  obtain ⟨name, inScope, owned⟩ := Factor.mem_scopeBits.mp (bits mem)
  obtain ⟨value, here⟩ := assigned name (NameSet.mem_ofList.mp inScope) bit owned
  rw [Assignment.total, here]
  rfl

theorem entry_eq_zero (valid : (c.network.checkTable t : Except (Error Rat) Unit) = .ok ())
    {values : List Nat} (outside : ¬c.network.InDomain t.scope values) : t.entry values = 0 :=
  Std.ExtTreeMap.getD_eq_fallback fun mem => outside (Network.entry_fits valid mem)

/-- In every store on a run, a valid table over encoded variables is compiled by enumeration, and
every assignment of the bits of its scope has the entry at the values that it stands for, or zero
where these are no values of the variables. -/
theorem evaluate_enumeration (noTolerance : config.tolerance = 0)
    (reachable : Workspace.Reachable config w) (allocated : c.encoding.Allocated)
    (valid : (c.network.checkTable t : Except (Error Rat) Unit) = .ok ())
    (encodes : c.Encodes t) :
    ∃ f w', c.compileWith t .enumeration w = .ok f w' ∧
      ∀ assignment, c.encoding.Assigned assignment t.scope →
        ∃ values, c.encoding.Decodes assignment t.scope values ∧
          w'.store.evaluate f assignment =
            .ok (some (if c.network.InDomain t.scope values then t.entry values else 0)) := by
  have sound : w.store.Sound (Reading.exact noTolerance) := reachable.sound
  have accepts := encodes.accepts valid
  obtain ⟨f, w', d, run, -, sound', shown, bits, means⟩ :=
    compileWith_computes sound allocated.sound accepts .enumeration
  refine ⟨f, w', run, fun assignment assigned => ?_⟩
  obtain ⟨decodes, evaluates⟩ := evaluate_decoded sound' shown bits accepts assigned
  refine ⟨_, decodes, ?_⟩
  rw [evaluates, means, enumeration_pointwise]
  split
  · rfl
  · next outside => rw [entry_eq_zero valid outside]

end Compiler

/-! ### An alarm -/

def ConditionalTable.alarm : ConditionalTable Rat where
  head := "Alarm"
  parents := ["Fire", "Burglar"]
  entries := .ofList
    [([0, 0, 0], (4 / 5 : Rat)), ([0, 0, 1], 2 / 5), ([0, 1, 0], 2 / 5), ([0, 1, 1], 1 / 5),
      ([0, 2, 0], 1 / 5), ([0, 2, 1], 1 / 10), ([1, 0, 0], 1 / 5), ([1, 0, 1], 3 / 5),
      ([1, 1, 0], 3 / 5), ([1, 1, 1], 4 / 5), ([1, 2, 0], 4 / 5), ([1, 2, 1], 9 / 10)]
  tag := some "max"

namespace Compiler

def alarm : Compiler Rat where
  network :=
    let declared : Network Rat :=
      { declared := [⟨"Fire", ["none", "small", "large"]⟩, ⟨"Burglar", ["no", "yes"]⟩,
          ⟨"Alarm", ["off", "on"]⟩] }
    declared.attach .alarm
  encoding :=
    let numbered : Encoding :=
      { next := 5
        ownedBits := [⟨"Fire", 0, ⟨1⟩⟩, ⟨"Fire", 1, ⟨2⟩⟩, ⟨"Alarm", 0, ⟨3⟩⟩, ⟨"Burglar", 0, ⟨4⟩⟩] }
    ((numbered.record "Fire" 3 [⟨1⟩, ⟨2⟩]).record "Alarm" 2 [⟨3⟩]).record "Burglar" 2 [⟨4⟩]

theorem allocated_alarm : alarm.encoding.Allocated :=
  Encoding.Allocated.empty.foldlM [("Fire", 3), ("Alarm", 2), ("Burglar", 2)] rfl

theorem checkTable_alarm :
    (alarm.network.checkTable .alarm : Except (Error Rat) Unit) = .ok () :=
  eq_ok_of_isOk (by decide +kernel)

theorem encodes_alarm : alarm.Encodes .alarm :=
  List.forall_mem_cons.mpr ⟨⟨_, rfl, rfl⟩, List.forall_mem_cons.mpr ⟨⟨_, rfl, rfl⟩,
    List.forall_mem_singleton.mpr ⟨_, rfl, rfl⟩⟩⟩

theorem evaluate_enumeration_alarm : ∃ f w',
    alarm.compileWith .alarm .enumeration (⟨Store.exact, #[]⟩ : Workspace Rat Rat) = .ok f w' ∧
    w'.store.evaluate f (fun bit => some (bit.id != 1)) = .ok (some (9 / 10)) ∧
    w'.store.evaluate f (fun _ => some true) = .ok (some 0) := by
  have created : Workspace.Reachable .exact (⟨Store.exact, #[]⟩ : Workspace Rat Rat) := .created rfl
  obtain ⟨f, w', run, evaluates⟩ :=
    evaluate_enumeration rfl created allocated_alarm checkTable_alarm encodes_alarm
  refine ⟨f, w', run, ?_, ?_⟩
  · obtain ⟨values, decodes, value⟩ := evaluates (fun bit => some (bit.id != 1))
      fun _ _ _ _ => ⟨_, rfl⟩
    have here : alarm.encoding.Decodes (fun bit => some (bit.id != 1))
      ConditionalTable.alarm.scope [1, 2, 1] := .cons rfl (.cons rfl (.cons rfl .nil))
    rw [value, decodes.unique here]
    decide +kernel
  · obtain ⟨values, decodes, value⟩ := evaluates (fun _ => some true) fun _ _ _ _ => ⟨_, rfl⟩
    have here : alarm.encoding.Decodes (fun _ => some true)
      ConditionalTable.alarm.scope [1, 3, 1] := .cons rfl (.cons rfl (.cons rfl .nil))
    rw [value, decodes.unique here]
    decide +kernel

end Compiler

end BayesDiagram
