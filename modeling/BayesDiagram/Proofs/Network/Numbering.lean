import BayesDiagram.Network.Encoding
import BayesDiagram.Proofs.Diagram.Unfolding
import BayesDiagram.Proofs.Sequences
import Mathlib.Algebra.BigOperators.Group.List.Basic
import Mathlib.Algebra.Ring.Nat
import Mathlib.Data.List.Nodup

/-! Numbering. Variables are given slots side by side, from identifier one on, and all views of an
encoding show the slots of the arities that were allocated. An allocation is refused only for a
name that has a slot or for want of identifiers. -/
namespace BayesDiagram

structure Slot where
  name : String
  arity : Nat
  first : Nat

namespace Slot

variable {s : Slot} {o : OwnedBit}

def width (s : Slot) : Nat :=
  bitsFor s.arity

def bits (s : Slot) : List Bit :=
  (List.range' s.first s.width).map Bit.mk

def block (s : Slot) : Block :=
  ⟨s.arity, s.bits⟩

def ownedBits (s : Slot) : List OwnedBit :=
  s.bits.zipIdx.map fun (bit, place) => ⟨s.name, place, bit⟩

theorem mem_ownedBits : o ∈ s.ownedBits ↔ s.name = o.owner ∧ s.bits[o.place]? = some o.bit := by
  obtain ⟨owner, place, bit⟩ := o
  simp only [ownedBits, List.mem_map, Prod.exists, OwnedBit.mk.injEq,
    List.mk_mem_zipIdx_iff_getElem?]
  constructor
  · rintro ⟨bit', place', here, rfl, rfl, rfl⟩
    exact ⟨rfl, here⟩
  · rintro ⟨rfl, here⟩
    exact ⟨bit, place, here, rfl, rfl, rfl⟩

theorem map_bit_ownedBits (s : Slot) : s.ownedBits.map OwnedBit.bit = s.bits := by
  rw [ownedBits, List.map_map]
  exact List.zipIdx_map_fst 0 s.bits

end Slot

namespace Encoding

variable {σ : Type} {e e' : Encoding} {arities : List (String × Nat)} {name : String} {arity : Nat}

/-! ### Slots side by side -/

def bitCount (arities : List (String × Nat)) : Nat :=
  (arities.map fun (_, arity) => bitsFor arity).sum

def slots (first : Nat) : List (String × Nat) → List Slot
  | [] => []
  | (name, arity) :: arities => ⟨name, arity, first⟩ :: slots (first + bitsFor arity) arities

theorem bitCount_append (before after : List (String × Nat)) :
    bitCount (before ++ after) = bitCount before + bitCount after := by
  simp [bitCount]

theorem slots_append (first : Nat) (before after : List (String × Nat)) :
    slots first (before ++ after) =
      slots first before ++ slots (first + bitCount before) after := by
  induction before generalizing first with
  | nil => rfl
  | cons v before ih => simp [slots, ih, bitCount, Nat.add_assoc]

theorem map_name_slots (first : Nat) (arities : List (String × Nat)) :
    (slots first arities).map Slot.name = arities.map Prod.fst := by
  induction arities generalizing first with
  | nil => rfl
  | cons v arities ih => exact congrArg (v.1 :: ·) (ih _)

theorem mem_of_mem_slots {first : Nat} {s : Slot} (mem : s ∈ slots first arities) :
    (s.name, s.arity) ∈ arities := by
  induction arities generalizing first with
  | nil => cases mem
  | cons v arities ih =>
    rcases List.mem_cons.mp mem with rfl | later
    · exact .head arities
    · exact .tail v (ih later)

theorem mem_slots (first : Nat) (before after : List (String × Nat)) :
    ⟨name, arity, first + bitCount before⟩ ∈ slots first (before ++ (name, arity) :: after) := by
  rw [slots_append]
  exact List.mem_append_right _ (.head _)

theorem exists_slot (first : Nat) (mem : (name, arity) ∈ arities) :
    ∃ s ∈ slots first arities, s.name = name ∧ s.arity = arity := by
  obtain ⟨before, after, rfl⟩ := List.append_of_mem mem
  exact ⟨_, mem_slots first before after, rfl, rfl⟩

theorem flatMap_bits_slots (first : Nat) (arities : List (String × Nat)) :
    (slots first arities).flatMap Slot.bits =
      (List.range' first (bitCount arities)).map Bit.mk := by
  induction arities generalizing first with
  | nil => rfl
  | cons v arities ih =>
    have count : bitCount (v :: arities) = bitsFor v.2 + bitCount arities := List.sum_cons
    rw [slots, List.flatMap_cons, ih, count, ← List.range'_append_1, List.map_append]
    rfl

/-! ### The views of an encoding -/

/-- All views of an encoding show some variables, in the order of their allocation. -/
structure Encodes (e : Encoding) (arities : List (String × Nat)) : Prop where
  names : (arities.map Prod.fst).Nodup
  blocks : ∀ name bits, e.blocks[name]? = some bits ↔
    ∃ s ∈ slots 1 arities, s.name = name ∧ s.bits = bits
  sizes : ∀ name arity, e.arities[name]? = some arity ↔ (name, arity) ∈ arities
  ownedBits : e.ownedBits = (slots 1 arities).flatMap Slot.ownedBits
  next_eq : e.next = 1 + bitCount arities
  next_le : e.next ≤ Bit.maxId

def Sound (e : Encoding) : Prop :=
  ∃ arities, e.Encodes arities

theorem encodes_empty : ({} : Encoding).Encodes [] where
  names := List.nodup_nil
  blocks := by simp [slots]
  sizes := by simp
  ownedBits := rfl
  next_eq := rfl
  next_le := by decide

theorem Encodes.mem_blocks (encodes : e.Encodes arities) :
    name ∈ e.blocks ↔ name ∈ arities.map Prod.fst := by
  rw [← Std.ExtTreeMap.isSome_getElem?_iff_mem, Option.isSome_iff_exists, List.mem_map]
  simp only [encodes.blocks]
  constructor
  · rintro ⟨_, s, mem, rfl, rfl⟩
    exact ⟨_, mem_of_mem_slots mem, rfl⟩
  · rintro ⟨⟨name, arity⟩, mem, rfl⟩
    obtain ⟨s, mem, same, -⟩ := exists_slot 1 mem
    exact ⟨_, s, mem, same, rfl⟩

def extend (e : Encoding) (s : Slot) : Encoding :=
  { e with next := e.next + s.width, ownedBits := e.ownedBits ++ s.ownedBits }.record
    s.name s.arity s.bits

/-- The bits of a block are handed out one after the other, as long as there are identifiers. -/
theorem foldlM_handOut (nextLe : e.next ≤ Bit.maxId) (name : String) (width : Nat) :
    (List.range width).foldlM (handOut name) (e, []) =
      if e.next + width ≤ Bit.maxId then
        let block := (List.range' e.next width).map Bit.mk
        .ok ({ e with
          next := e.next + width
          ownedBits := e.ownedBits ++ block.zipIdx.map fun (bit, place) => ⟨name, place, bit⟩ },
          block)
      else .error .identifiersExhausted := by
  -- the last bit taken off, since the loop puts every bit behind the ones it has
  induction width with
  | zero => simp [nextLe, pure, Except.pure]
  | succ width ih =>
    rw [List.range_succ, List.foldlM_append, ih]
    by_cases room : e.next + width ≤ Bit.maxId
    · rw [if_pos room, List.range'_concat, Nat.one_mul]
      simp only [bind, Except.bind, List.foldlM_cons, List.foldlM_nil, handOut]
      by_cases more : e.next + width < Bit.maxId
      · rw [if_pos more, if_pos (by omega)]
        simp [List.zipIdx_append, Nat.add_assoc, pure, Except.pure]
      · rw [if_neg more, if_neg (by omega)]
    · rw [if_neg room, if_neg (by omega)]
      rfl

theorem Encodes.allocate_eq_ok (encodes : e.Encodes arities) :
    e.allocate name arity = .ok e' ↔ name ∉ arities.map Prod.fst ∧
      e.next + bitsFor arity ≤ Bit.maxId ∧ e.extend ⟨name, arity, e.next⟩ = e' := by
  rw [allocate, ← encodes.mem_blocks, foldlM_handOut encodes.next_le]
  by_cases known : name ∈ e.blocks
  · simp [known, throw, throwThe, MonadExceptOf.throw, bind, Except.bind]
  by_cases room : e.next + bitsFor arity ≤ Bit.maxId
  · simp [known, room, bind, Except.bind, pure, Except.pure, extend, Slot.ownedBits, Slot.bits,
      Slot.width]
  · simp [known, room, bind, Except.bind]

/-- An allocation adds its variable to all views. -/
theorem Encodes.allocate (encodes : e.Encodes arities)
    (run : e.allocate name arity = .ok e') : e'.Encodes (arities ++ [(name, arity)]) := by
  obtain ⟨fresh, room, rfl⟩ := encodes.allocate_eq_ok.mp run
  have slots_eq : slots 1 (arities ++ [(name, arity)]) =
      slots 1 arities ++ [⟨name, arity, e.next⟩] := by
    rw [slots_append, encodes.next_eq]
    rfl
  exact
    { names := by
        rw [List.map_append, List.map_singleton, List.nodup_append_comm]
        exact List.nodup_cons.mpr ⟨fresh, encodes.names⟩
      blocks := fun other bits => by
        simp only [slots_eq, List.mem_append, List.mem_singleton, or_and_right, exists_or,
          exists_eq_left, ← encodes.blocks]
        have absent : e.blocks[name]? = none :=
          Std.ExtTreeMap.getElem?_eq_none fun known => fresh (encodes.mem_blocks.mp known)
        show (e.blocks.insert name _)[other]? = _ ↔ _
        by_cases same : name = other
        · subst same
          simp [absent]
        · simp [Std.ExtTreeMap.getElem?_insert, same]
      sizes := fun other arity' => by
        have absent (n : Nat) : (name, n) ∉ arities := fun mem => fresh (List.mem_map_of_mem mem)
        show (e.arities.insert name arity)[other]? = _ ↔ _
        by_cases same : name = other
        · subst same
          simp [absent, eq_comm]
        · simp [Std.ExtTreeMap.getElem?_insert, same, Ne.symm same, encodes.sizes]
      ownedBits := by
        rw [slots_eq, List.flatMap_append, ← encodes.ownedBits, List.flatMap_singleton]
        rfl
      next_eq := by
        rw [bitCount_append, ← Nat.add_assoc, ← encodes.next_eq]
        rfl
      next_le := room }

def allocateAll (arities : List (String × Nat)) : Except Fault Encoding :=
  arities.foldlM (fun e (name, arity) => e.allocate name arity) {}

theorem Encodes.foldlM_allocate {before : List (String × Nat)} (encodes : e.Encodes before)
    (nodup : ((before ++ arities).map Prod.fst).Nodup)
    (room : 1 + bitCount (before ++ arities) ≤ Bit.maxId) :
    ∃ e', arities.foldlM (fun e (name, arity) => e.allocate name arity) e = .ok e' ∧
      e'.Encodes (before ++ arities) := by
  induction arities generalizing e before with
  | nil => exact ⟨e, rfl, by rwa [List.append_nil]⟩
  | cons v arities ih =>
    obtain ⟨name, arity⟩ := v
    have fresh : name ∉ before.map Prod.fst := by
      rw [List.map_append, List.nodup_append_comm] at nodup
      exact fun mem => (List.nodup_cons.mp nodup).1 (List.mem_append_right _ mem)
    have fits : e.next + bitsFor arity ≤ Bit.maxId := by
      rw [bitCount_append] at room
      have count : bitCount ((name, arity) :: arities) = bitsFor arity + bitCount arities :=
        List.sum_cons
      have := encodes.next_eq
      omega
    have run := encodes.allocate_eq_ok.mpr ⟨fresh, fits, rfl⟩
    rw [← List.singleton_append, ← List.append_assoc] at nodup room ⊢
    rw [List.singleton_append, List.foldlM_cons, bind_of_eq_ok run]
    exact ih (encodes.allocate run) nodup room

theorem exists_allocateAll (nodup : (arities.map Prod.fst).Nodup)
    (room : bitCount arities < Bit.maxId) :
    ∃ e, allocateAll arities = .ok e ∧ e.Encodes arities :=
  encodes_empty.foldlM_allocate nodup (by rw [List.nil_append]; omega)

/-! ### Blocks -/

variable {b : Block}

theorem block?_eq_some : e.block? name = some b ↔
    e.blocks[name]? = some b.bits ∧ e.arities[name]? = some b.arity := by
  obtain ⟨arity, bits⟩ := b
  rw [block?]
  split
  · next known =>
    rw [Std.ExtTreeMap.getElem?_eq_some_getElem known,
      Std.ExtTreeMap.getElem?_eq_some_getElem (e.covered name known)]
    simp [and_comm]
  · next unknown => simp [Std.ExtTreeMap.getElem?_eq_none unknown]

theorem Encodes.block?_eq_some (encodes : e.Encodes arities) :
    e.block? name = some b ↔ ∃ s ∈ slots 1 arities, s.name = name ∧ s.block = b := by
  rw [Encoding.block?_eq_some, encodes.blocks, encodes.sizes]
  constructor
  · rintro ⟨⟨s, mem, rfl, bits⟩, sized⟩
    have same := List.inj_on_of_nodup_map encodes.names (mem_of_mem_slots mem) sized rfl
    refine ⟨s, mem, rfl, ?_⟩
    rw [Slot.block, bits, (Prod.mk.inj same).2]
  · rintro ⟨s, mem, rfl, rfl⟩
    exact ⟨⟨s, mem, rfl, rfl⟩, mem_of_mem_slots mem⟩

theorem Encodes.exists_block? (encodes : e.Encodes arities) (mem : (name, arity) ∈ arities) :
    ∃ b, e.block? name = some b ∧ b.arity = arity := by
  obtain ⟨s, there, rfl, rfl⟩ := exists_slot 1 mem
  exact ⟨s.block, encodes.block?_eq_some.mpr ⟨s, there, rfl, rfl⟩, rfl⟩

/-! ### Bits -/

variable {bit : Bit} {o : OwnedBit}

namespace Encodes

variable (encodes : e.Encodes arities)

include encodes

theorem map_bit_ownedBits :
    e.ownedBits.map OwnedBit.bit = (List.range' 1 (bitCount arities)).map Bit.mk := by
  rw [encodes.ownedBits, List.map_flatMap, ← flatMap_bits_slots]
  exact List.flatMap_congr fun s _ => s.map_bit_ownedBits

theorem size_eq : e.size = bitCount arities := by
  have lengths := congrArg List.length encodes.map_bit_ownedBits
  simpa [size] using lengths

theorem bit_of_getElem? {i : Nat} (here : e.ownedBits[i]? = some o) :
    i < e.size ∧ o.bit = ⟨i + 1⟩ := by
  have bound : i < e.size := (List.getElem?_eq_some_iff.mp here).1
  have there := congrArg (·[i]?) encodes.map_bit_ownedBits
  simp only [List.getElem?_map, here, List.getElem?_range' (encodes.size_eq ▸ bound),
    Option.map_some, Option.some.injEq] at there
  exact ⟨bound, by rw [there, Nat.one_mul, Nat.add_comm]⟩

theorem exists_ownedBit?_iff :
    (∃ o, e.ownedBit? bit = some o) ↔ 1 ≤ bit.id ∧ bit.id ≤ e.size := by
  obtain ⟨id⟩ := bit
  cases id with
  | zero => exact iff_of_false nofun nofun
  | succ i =>
    show (∃ o, e.ownedBits[i]? = some o) ↔ 1 ≤ i + 1 ∧ i + 1 ≤ e.size
    rw [and_iff_right (Nat.le_add_left 1 i), Nat.add_one_le_iff]
    exact ⟨fun ⟨_, here⟩ => (encodes.bit_of_getElem? here).1,
      fun bound => ⟨_, List.getElem?_eq_getElem bound⟩⟩

theorem ownedBit?_eq_some : e.ownedBit? bit = some o ↔ o ∈ e.ownedBits ∧ o.bit = bit := by
  obtain ⟨id⟩ := bit
  cases id with
  | zero =>
    refine iff_of_false nofun fun ⟨mem, same⟩ => ?_
    obtain ⟨i, here⟩ := List.mem_iff_getElem?.mp mem
    cases same.symm.trans (encodes.bit_of_getElem? here).2
  | succ i =>
    show e.ownedBits[i]? = some o ↔ _
    constructor
    · intro here
      exact ⟨List.mem_of_getElem? here, (encodes.bit_of_getElem? here).2⟩
    · rintro ⟨mem, same⟩
      obtain ⟨j, here⟩ := List.mem_iff_getElem?.mp mem
      cases same.symm.trans (encodes.bit_of_getElem? here).2
      exact here

theorem ownedBit?_iff : e.ownedBit? bit = some o ↔
    o.bit = bit ∧ ∃ b, e.block? o.owner = some b ∧ b.bits[o.place]? = some bit := by
  rw [encodes.ownedBit?_eq_some, encodes.ownedBits, List.mem_flatMap, and_comm]
  refine and_congr_right fun same => ?_
  simp only [Slot.mem_ownedBits, encodes.block?_eq_some, same]
  constructor
  · rintro ⟨s, mem, owner, here⟩
    exact ⟨s.block, ⟨s, mem, owner, rfl⟩, here⟩
  · rintro ⟨_, ⟨s, mem, owner, rfl⟩, here⟩
    exact ⟨s, mem, owner, here⟩

end Encodes

end Encoding

end BayesDiagram
