import BayesDiagram.Proofs.Inference.Scopes
import BayesDiagram.Proofs.Network.Blocks
import BayesDiagram.Proofs.Sequences

/-! The roles of variables in a query. A relevant variable is queried, observed or hidden, and its
role settles the operations of its bits. -/
namespace BayesDiagram

inductive Role where
  | queried
  | observed (value : Nat)
  | hidden

namespace Role

def operation : Role → Nat → BitOperation
  | queried, _ => .keep
  | observed value, place => if value.testBit place then .fixHigh else .fixLow
  | hidden, _ => .sumOut

def rest : Role → Role
  | queried => .queried
  | observed value => .observed (value / 2)
  | hidden => .hidden

/-- The operations that a role asks for the bits of a variable. -/
def Assigned (operations : BitOperations) (bits : List Bit) (role : Role) : Prop :=
  ∀ place bit, bits[place]? = some bit →
    operations.getD bit.id .sumOut = role.operation place

theorem Assigned.tail {operations : BitOperations} {bit : Bit} {bits : List Bit} {role : Role}
    (assigned : role.Assigned operations (bit :: bits)) : role.rest.Assigned operations bits := by
  intro place other found
  rw [assigned (place + 1) other found]
  cases role with
  | queried => rfl
  | observed value => rw [operation, Nat.testBit_succ]; rfl
  | hidden => rfl

def Fits (arity : Nat) : Role → Prop
  | observed value => value < arity
  | _ => True

theorem operation_eq_keep {role : Role} {place : Nat} :
    role.operation place = .keep ↔ role = .queried := by
  cases role with
  | queried => simp [operation]
  | observed value =>
    rw [operation]
    split <;> simp
  | hidden => simp [operation]

end Role

namespace Evidence

def role (query : NameSet) (evidence : Evidence) (name : String) : Role :=
  if query.contains name then .queried
  else match evidence[name]? with
    | some value => .observed value
    | none => .hidden

def hides (query : NameSet) (evidence : Evidence) (name : String) : Bool :=
  !query.contains name && (evidence[name]?).isNone

variable {query : NameSet} {evidence : Evidence} {name : String}

theorem role_eq_queried : role query evidence name = .queried ↔ name ∈ query := by
  rw [role, ← Std.ExtTreeSet.contains_iff_mem]
  split
  · next isQueried => simp [isQueried]
  · next notQueried =>
    split
    · simp [notQueried]
    · simp [notQueried]

theorem role_of_observed (notQueried : name ∉ query) {value : Nat}
    (seen : evidence[name]? = some value) : role query evidence name = .observed value := by
  rw [role, if_neg (mt Std.ExtTreeSet.contains_iff_mem.mp notQueried), seen]

theorem seen_of_role {value : Nat} (observed : role query evidence name = .observed value) :
    evidence[name]? = some value := by
  rw [role] at observed
  split at observed
  · cases observed
  · split at observed
    · next seen =>
      cases observed
      exact seen
    · cases observed

theorem hides_eq :
    hides query evidence name = !(query.contains name || evidence.contains name) := by
  rw [hides, Bool.not_or, Std.ExtTreeMap.contains_eq_isSome_getElem?, Option.not_isSome]

theorem role_of_hides (hidden : hides query evidence name = true) :
    role query evidence name = .hidden := by
  simp only [hides, Bool.and_eq_true, Bool.not_eq_true', Option.isNone_iff_eq_none] at hidden
  rw [role, hidden.1, hidden.2]
  rfl

end Evidence

namespace Encoding

variable {σ : Type} {e : Encoding} {name : String}

theorem block_eq_ok {b : Block} :
    (e.block name : Except (Error σ) Block) = .ok b ↔ e.block? name = some b := by
  rw [block]
  cases e.block? name with
  | none => simp
  | some b' => simp

theorem bits_eq_ok {bits : List Bit} :
    (e.bits name : Except (Error σ) (List Bit)) = .ok bits ↔
      ∃ b, e.block? name = some b ∧ b.bits = bits := by
  rw [Encoding.bits, map_eq_ok]
  simp only [block_eq_ok]

theorem bits_of_block? {b : Block} (found : e.block? name = some b) :
    (e.bits name : Except (Error σ) (List Bit)) = .ok (e.bitsOf name) :=
  bits_eq_ok.mpr ⟨b, found, (bitsOf_of_block? found).symm⟩

theorem eq_bitsOf {bits : List Bit} (run : (e.bits name : Except (Error σ) _) = .ok bits) :
    bits = e.bitsOf name := by
  obtain ⟨b, found, rfl⟩ := bits_eq_ok.mp run
  exact (bitsOf_of_block? found).symm

theorem expand_eq {names : List String} (known : ∀ name ∈ names, ∃ b, e.block? name = some b) :
    (e.expand names : Except (Error σ) (List Bit)) = .ok (names.flatMap e.bitsOf) := by
  have read : (names.mapM e.bits : Except (Error σ) (List (List Bit))) =
      .ok (names.map e.bitsOf) :=
    mapM_of_forall fun name mem => by
      obtain ⟨b, found⟩ := known name mem
      exact bits_of_block? found
  rw [expand, bind_of_eq_ok read]
  rfl

theorem encode_eq_ok {index : Nat} {digits : List (Bit × Bool)} :
    (e.encode name index : Except (Error σ) _) = .ok digits ↔
      ∃ b, e.block? name = some b ∧ index < b.arity ∧
        b.bits.zipIdx.map (fun (bit, place) => (bit, index.testBit place)) = digits := by
  rw [encode, bind_eq_ok]
  simp only [block_eq_ok]
  refine exists_congr fun b => and_congr_right fun _ => ?_
  split
  · next inDomain => simp [inDomain, pure, Except.pure]
  · next outside => simp [outside, throw, throwThe, MonadExceptOf.throw]

theorem encode_code (sound : e.Sound) {v : String → Nat} (below : v name < e.arityOf name) :
    (e.encode name (v name) : Except (Error σ) _) =
      .ok ((e.bitsOf name).map fun bit => (bit, e.code v bit)) := by
  cases found : e.block? name with
  | none =>
    rw [arityOf, found] at below
    exact absurd below (Nat.not_lt_zero _)
  | some b =>
    rw [arityOf_of_block? found] at below
    rw [bitsOf_of_block? found]
    refine encode_eq_ok.mpr ⟨b, found, below, ?_⟩
    conv_rhs => rw [← List.zipIdx_map_fst 0 b.bits, List.map_map]
    refine List.map_congr_left fun pair indexed => ?_
    obtain ⟨bit, place⟩ := pair
    have here := List.mk_mem_zipIdx_iff_getElem?.mp indexed
    dsimp only [Function.comp]
    rw [code_of_getElem? sound found here]

end Encoding

namespace Engine

variable {σ : Type} {e : Engine} {query : NameSet} {evidence : Evidence} {name : String}

theorem map_uniform (bits : List Bit) (operation : BitOperation) :
    bits.zipIdx.map (fun (bit, _) => (bit, operation)) = bits.map (·, operation) := by
  conv_rhs => rw [← List.zipIdx_map_fst 0 bits, List.map_map]
  rfl

theorem variableOperations_eq_ok {operations : List (Bit × BitOperation)} :
    (e.variableOperations query evidence name : Except (Error σ) _) = .ok operations ↔
      ∃ b, e.encoding.block? name = some b ∧ (evidence.role query name).Fits b.arity ∧
        b.bits.zipIdx.map (fun (bit, place) => (bit, (evidence.role query name).operation place)) =
          operations := by
  rw [variableOperations, Evidence.role]
  split
  · simp only [map_eq_ok, Encoding.bits_eq_ok, Role.Fits, Role.operation, map_uniform,
      exists_exists_and_eq_and, true_and]
  · cases evidence[name]? with
    | some value =>
      simp only [map_eq_ok, Encoding.encode_eq_ok, Role.Fits, Role.operation, ← and_assoc,
        exists_exists_and_eq_and, List.map_map]
      rfl
    | none =>
      simp only [map_eq_ok, Encoding.bits_eq_ok, Role.Fits, Role.operation, map_uniform,
        exists_exists_and_eq_and, true_and]

theorem getD_foldl_insert {pairs : List (Bit × BitOperation)} {start : BitOperations} {bit : Bit}
    {operation : BitOperation} (only : ∀ pair ∈ pairs, pair.1 = bit → pair.2 = operation)
    (there : bit ∈ pairs.map Prod.fst ∨ start.getD bit.id .sumOut = operation) :
    (pairs.foldl (fun operations (bit, operation) => operations.insert bit.id operation)
      start).getD bit.id .sumOut = operation := by
  induction pairs generalizing start with
  | nil => exact there.resolve_left List.not_mem_nil
  | cons pair pairs ih =>
    obtain ⟨first, its⟩ := pair
    refine ih (fun other mem => only other (.tail _ mem)) ?_
    by_cases same : first = bit
    · subst same
      rw [Std.ExtTreeMap.getD_insert_self]
      exact .inr (only (first, its) (.head pairs) rfl)
    · have apart : compare first.id bit.id ≠ .eq := fun equal =>
        same (congrArg Bit.mk (Std.LawfulEqOrd.eq_of_compare equal))
      rw [Std.ExtTreeMap.getD_insert, if_neg apart]
      rw [List.map_cons, List.mem_cons] at there
      exact there.imp_left fun mem => mem.resolve_left (Ne.symm same)

def operationTable (assigned : List (List (Bit × BitOperation))) : BitOperations :=
  assigned.flatten.foldl (fun operations (bit, operation) => operations.insert bit.id operation) ∅

theorem assignOperations_eq_ok {relevant : NameSet} {operations : BitOperations} :
    (e.assignOperations relevant query evidence : Except (Error σ) _) = .ok operations ↔
      ∃ assigned, (relevant.toList.mapM (e.variableOperations query evidence) :
          Except (Error σ) _) = .ok assigned ∧
        (evidence.keys.forM (e.checkObserved (operationTable assigned)) :
          Except (Error σ) Unit) = .ok () ∧ operationTable assigned = operations := by
  rw [assignOperations, bind_eq_ok]
  refine exists_congr fun assigned => and_congr_right fun _ => ?_
  dsimp only
  rw [bind_eq_ok]
  constructor
  · rintro ⟨_, checked, made⟩
    exact ⟨checked, Except.ok.inj made⟩
  · rintro ⟨checked, rfl⟩
    exact ⟨(), checked, rfl⟩

theorem assigned_operationTable (sound : e.encoding.Sound) {relevant : NameSet}
    {assigned : List (List (Bit × BitOperation))}
    (found : (relevant.toList.mapM (e.variableOperations query evidence) :
      Except (Error σ) _) = .ok assigned) (isRelevant : name ∈ relevant) :
    (∃ b, e.encoding.block? name = some b ∧ (evidence.role query name).Fits b.arity) ∧
      (evidence.role query name).Assigned (operationTable assigned) (e.encoding.bitsOf name) := by
  obtain ⟨own, isOwn⟩ :=
    answer_of_mapM_eq_ok found (Std.ExtTreeSet.mem_toList.mpr isRelevant)
  obtain ⟨b, here, fits, rfl⟩ := variableOperations_eq_ok.mp isOwn
  refine ⟨⟨b, here, fits⟩, fun place bit at_place => ?_⟩
  rw [Encoding.bitsOf_of_block? here] at at_place
  refine getD_foldl_insert (fun pair mem same => ?_) (.inl ?_)
  · obtain ⟨part, inAssigned, inPart⟩ := List.mem_flatten.mp mem
    obtain ⟨other, -, isPart⟩ := (mem_of_mapM_eq_ok found).mp inAssigned
    obtain ⟨b', there, -, rfl⟩ := variableOperations_eq_ok.mp isPart
    obtain ⟨⟨bit', place'⟩, indexed, rfl⟩ := List.mem_map.mp inPart
    obtain rfl : bit' = bit := same
    rw [List.mk_mem_zipIdx_iff_getElem?] at indexed
    -- the bit has one owner and one place in its block
    have owned := sound.ownedBit?_of_getElem? there indexed
    rw [sound.ownedBit?_of_getElem? here at_place] at owned
    cases owned
    rfl
  · refine List.mem_map.mpr ⟨(bit, (evidence.role query name).operation place),
      List.mem_flatten.mpr ⟨_, (mem_of_mapM_eq_ok found).mpr ⟨name, ?_, isOwn⟩, ?_⟩, rfl⟩
    · exact Std.ExtTreeSet.mem_toList.mpr isRelevant
    · refine List.mem_map.mpr ⟨(bit, place), ?_, rfl⟩
      exact List.mk_mem_zipIdx_iff_getElem?.mpr at_place

theorem handles_of_assigned {operations : BitOperations}
    (assigned : (evidence.role query name).Assigned operations (e.encoding.bitsOf name)) :
    Factor.Handles operations query e.encoding.bitsOf name := by
  intro bit mem
  obtain ⟨place, at_place⟩ := List.mem_iff_getElem?.mp mem
  rw [assigned place bit at_place, Role.operation_eq_keep, Evidence.role_eq_queried]

theorem checkObserved_of_assigned {operations : BitOperations} {b : Block}
    (found : e.encoding.block? name = some b) {value : Nat}
    (assigned : (Role.observed value).Assigned operations (e.encoding.bitsOf name)) :
    (e.checkObserved operations name : Except (Error σ) Unit) = .ok () := by
  rw [checkObserved, Encoding.bits_of_block? found]
  refine if_neg fun summed => ?_
  obtain ⟨bit, mem, isSummed⟩ := List.any_eq_true.mp summed
  obtain ⟨place, at_place⟩ := List.mem_iff_getElem?.mp mem
  have assigned := assigned place bit at_place
  rw [Std.ExtTreeMap.getD_eq_getD_getElem?, beq_iff_eq.mp isSummed, Option.getD_some,
    Role.operation] at assigned
  split at assigned <;> cases assigned

variable (σ) in
theorem exists_assignOperations (sound : e.encoding.Sound) {relevant : NameSet}
    (fits : ∀ name ∈ relevant,
      ∃ b, e.encoding.block? name = some b ∧ (evidence.role query name).Fits b.arity)
    (observed : ∀ name ∈ evidence, name ∈ relevant ∧ name ∉ query) :
    ∃ operations, (e.assignOperations relevant query evidence : Except (Error σ) _) =
      .ok operations := by
  obtain ⟨assigned, found⟩ : ∃ assigned,
      (relevant.toList.mapM (e.variableOperations query evidence) : Except (Error σ) _) =
        .ok assigned :=
    exists_mapM_eq_ok fun name mem => by
      obtain ⟨b, here, fits⟩ := fits name (Std.ExtTreeSet.mem_toList.mp mem)
      exact ⟨_, variableOperations_eq_ok.mpr ⟨b, here, fits, rfl⟩⟩
  refine ⟨_, assignOperations_eq_ok.mpr ⟨assigned, found, forM_eq_ok.mpr fun name mem => ?_, rfl⟩⟩
  rw [Std.ExtTreeMap.mem_keys] at mem
  obtain ⟨isRelevant, notQueried⟩ := observed name mem
  obtain ⟨⟨b, here, -⟩, operations⟩ := assigned_operationTable sound found isRelevant
  have seen := Std.ExtTreeMap.getElem?_eq_some_getElem mem
  rw [Evidence.role_of_observed notQueried seen] at operations
  exact checkObserved_of_assigned here operations

end Engine

end BayesDiagram
