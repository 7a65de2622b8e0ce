import BayesDiagram.Proofs.Inference.Loading

/-! Posteriors read by labels. The last label of a variable counts; a posterior over queried
variables has a value for some labels exactly when each of them has a label of its domain. -/
namespace BayesDiagram

theorem Assignment.isSome_ofList {pairs : List (Bit × Bool)} {bit : Bit}
    (mem : bit ∈ pairs.map Prod.fst) : (Assignment.ofList pairs bit).isSome = true := by
  obtain ⟨pair, there, rfl⟩ := List.mem_map.mp mem
  rw [Assignment.ofList, Option.isSome_map, List.find?_isSome]
  exact ⟨pair, List.mem_reverse.mpr there, beq_self_eq_true pair.1⟩

theorem getElem?_ofList_labels (labels : List (String × String)) (name : String) :
    (Std.ExtTreeMap.ofList labels : Std.ExtTreeMap String String)[name]? =
      labels.reverse.lookup name := by
  -- every label is inserted into what the earlier ones left, so the map varies along the list
  suffices inserted : ∀ chosen : Std.ExtTreeMap String String,
      (chosen.insertMany labels)[name]? = (labels.reverse.lookup name).or chosen[name]? by
    rw [Std.ExtTreeMap.ofList_eq_insertMany_empty, inserted, Std.ExtTreeMap.getElem?_empty,
      Option.or_none]
  induction labels with
  | nil => exact fun chosen => by simp
  | cons first labels ih =>
    intro chosen
    obtain ⟨other, label⟩ := first
    rw [Std.ExtTreeMap.insertMany_cons, ih, List.reverse_cons, List.lookup_append, Option.or_assoc,
      Std.ExtTreeMap.getElem?_insert]
    congr 1
    by_cases same : name = other
    · subst same
      rw [if_pos Std.ReflCmp.compare_self, List.lookup_cons_self]
      rfl
    · rw [if_neg (mt Std.LawfulEqOrd.compare_eq_iff_eq.mp (Ne.symm same)), List.lookup_cons,
        beq_eq_false_iff_ne.mpr same]
      rfl

namespace Network

variable {σ : Type} {n : Network σ} {name label : String}

/-- The last label of a variable is in its domain. -/
def Labelled (n : Network σ) (labels : List (String × String)) (name : String) : Prop :=
  ∃ label, labels.reverse.lookup name = some label ∧
    ∃ v, n.getVariable name = .ok v ∧ label ∈ v.labels

theorem exists_valueIndex : (∃ index, n.valueIndex name label = .ok index) ↔
    ∃ v, n.getVariable name = .ok v ∧ label ∈ v.labels := by
  simp only [valueIndex, bind_eq_ok, @exists_comm Nat, exists_and_left]
  refine exists_congr fun v => and_congr_right fun _ => ?_
  rw [Variable.indexOf?, ← List.isSome_idxOf?]
  cases v.labels.idxOf? label with
  | none => simp [throw, throwThe, MonadExceptOf.throw]
  | some index => simp [pure, Except.pure]

end Network

namespace Model

open Failure Store

variable {σ κ : Type} [Coefficient σ κ] {m : Model σ} {s : Store σ κ} {p : Posterior σ}
  {d : Diagram κ} {labels : List (String × String)} {name : String}

def spell (m : Model σ) (labels : List (String × String)) (name : String) :
    Except (Failure σ) (List (Bit × Bool)) :=
  match (Std.ExtTreeMap.ofList labels : Std.ExtTreeMap String String)[name]? with
  | none => throw (.error (.missingAssignment [name]))
  | some label => liftError do m.encoding.encode name (← m.network.valueIndex name label)

theorem evaluate_eq (m : Model σ) (s : Store σ κ) (p : Posterior σ)
    (labels : List (String × String)) :
    m.evaluate s p labels = (do
      let bits ← p.query.mapM (m.spell labels)
      match ← liftFault (s.evaluate p.root (.ofList bits.flatten)) with
      | some value => return Coefficient.toScalar value
      | none => throw (.error (.missingAssignment p.query))) := by
  rw [evaluate]
  rfl

theorem spell_eq_ok {digits : List (Bit × Bool)} :
    m.spell labels name = .ok digits ↔
      ∃ label, labels.reverse.lookup name = some label ∧
        ∃ index, m.network.valueIndex name label = .ok index ∧
          (m.encoding.encode name index : Except (Error σ) _) = .ok digits := by
  rw [spell, getElem?_ofList_labels]
  cases labels.reverse.lookup name with
  | none => simp [throw, throwThe, MonadExceptOf.throw]
  | some label => simp only [liftError_eq_ok, bind_eq_ok, Option.some.injEq, exists_eq_left']

theorem spell_ne_fault {fault : Fault} : m.spell labels name ≠ .error (.fault fault) := by
  rw [spell]
  split
  · exact nofun
  · next label _ =>
    cases (m.network.valueIndex name label >>= m.encoding.encode name :
      Except (Error σ) (List (Bit × Bool))) <;> exact nofun

theorem exists_spell {b : Block} (found : m.encoding.block? name = some b)
    (arity : b.arity = m.network.arityOf name) :
    (∃ digits, m.spell labels name = .ok digits) ↔ m.network.Labelled labels name := by
  simp only [Network.Labelled, spell_eq_ok, @exists_comm (List (Bit × Bool)), exists_and_left,
    ← Network.exists_valueIndex]
  refine exists_congr fun label => and_congr_right fun _ => exists_congr fun index => ?_
  refine and_iff_left_of_imp fun resolved => ⟨_, Encoding.encode_eq_ok.mpr ⟨b, found, ?_, rfl⟩⟩
  exact arity ▸ Network.valueIndex_lt resolved

theorem mem_of_spell {digits : List (Bit × Bool)} (spelled : m.spell labels name = .ok digits)
    {bit : Bit} (owned : bit ∈ m.encoding.bitsOf name) : bit ∈ digits.map Prod.fst := by
  obtain ⟨label, -, index, -, encoded⟩ := spell_eq_ok.mp spelled
  obtain ⟨b, found, -, rfl⟩ := Encoding.encode_eq_ok.mp encoded
  rw [Encoding.bitsOf_of_block? found] at owned
  rw [List.map_map]
  exact (List.zipIdx_map_fst 0 b.bits).symm ▸ owned

theorem exists_evaluate (shown : s.RootShows p.root d) (ordered : d.Ordered)
    (within : ∀ bit ∈ d.bits, ∃ name ∈ p.query, bit ∈ m.encoding.bitsOf name)
    (encoded : ∀ name ∈ p.query, ∃ b, m.encoding.block? name = some b ∧
      b.arity = m.network.arityOf name) :
    (∃ value, m.evaluate s p labels = .ok value) ↔
      ∀ name ∈ p.query, m.network.Labelled labels name := by
  have spells (name : String) (asked : name ∈ p.query) :
      (∃ digits, m.spell labels name = .ok digits) ↔ m.network.Labelled labels name := by
    obtain ⟨b, found, arity⟩ := encoded name asked
    exact exists_spell found arity
  constructor
  · rintro ⟨value, run⟩ name asked
    obtain ⟨parts, spelled, -⟩ := BayesDiagram.bind_eq_ok.mp run
    exact (spells name asked).mp (answer_of_mapM_eq_ok spelled asked)
  · intro labelled
    obtain ⟨parts, spelled⟩ := exists_mapM_eq_ok fun name asked =>
      (spells name asked).mpr (labelled name asked)
    have covered (bit : Bit) (mem : bit ∈ d.bits) :
        (Assignment.ofList parts.flatten bit).isSome = true := by
      obtain ⟨name, asked, owned⟩ := within bit mem
      obtain ⟨digits, own⟩ := answer_of_mapM_eq_ok spelled asked
      refine Assignment.isSome_ofList ?_
      obtain ⟨pair, there, rfl⟩ := List.mem_map.mp (mem_of_spell own owned)
      exact List.mem_map_of_mem (List.mem_flatten.mpr
        ⟨digits, (mem_of_mapM_eq_ok spelled).mpr ⟨name, asked, own⟩, there⟩)
    obtain ⟨value, found⟩ := Option.isSome_iff_exists.mp (Diagram.evaluate_isSome covered 0 1)
    refine ⟨Coefficient.toScalar value, ?_⟩
    rw [evaluate_eq, bind_of_eq_ok spelled, shown.evaluate_eq ordered, found]
    rfl

theorem evaluate_ne_fault (shown : s.RootShows p.root d) (ordered : d.Ordered) (fault : Fault) :
    m.evaluate s p labels ≠ .error (.fault fault) := by
  intro faulty
  rcases BayesDiagram.bind_eq_error.mp faulty with failed | ⟨parts, -, failed⟩
  · obtain ⟨name, -, failed⟩ := exists_of_mapM_eq_error failed
    exact spell_ne_fault failed
  · rw [shown.evaluate_eq ordered] at failed
    cases found : d.evaluate (.ofList parts.flatten) 0 1 with
    | none =>
      rw [found] at failed
      cases failed
    | some value =>
      rw [found] at failed
      cases failed

end Model

end BayesDiagram
