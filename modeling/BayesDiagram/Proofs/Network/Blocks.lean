import BayesDiagram.Proofs.Diagram.Unfolding
import BayesDiagram.Proofs.Network.Numbering
import Mathlib.Algebra.Ring.Nat
import Mathlib.Data.List.Basic
import Mathlib.Logic.Function.Basic

/-! The blocks of an encoding. Blocks of different variables share no bit, all bits are proper, and
the code of a choice of values changes with one value in the bits of its block only. -/
namespace BayesDiagram

/-! ### Binary digits -/

theorem le_two_pow_bitsFor (n : Nat) : n ≤ 2 ^ bitsFor n := by
  unfold bitsFor
  split
  · omega
  · have := Nat.lt_log2_self (n := n - 1)
    omega

namespace Bit

/-- The assignment with the digits of a number written to some bits, the least digit first. -/
def write : List Bit → Nat → (Bit → Bool) → Bit → Bool
  | [], _, a => a
  | bit :: bits, n, a => Function.update (write bits (n / 2) a) bit (n.testBit 0)

theorem write_of_notMem {bits : List Bit} {n : Nat} {a : Bit → Bool} {bit : Bit}
    (absent : bit ∉ bits) : write bits n a bit = a bit := by
  induction bits generalizing n with
  | nil => rfl
  | cons first bits ih =>
    rw [List.mem_cons, not_or] at absent
    rw [write, Function.update_of_ne absent.1, ih absent.2]

theorem write_of_getElem? {bits : List Bit} (nodup : bits.Nodup) {n i : Nat} {a : Bit → Bool}
    {bit : Bit} (found : bits[i]? = some bit) : write bits n a bit = n.testBit i := by
  induction bits generalizing n i with
  | nil => cases found
  | cons first bits ih =>
    obtain ⟨fresh, nodup⟩ := List.nodup_cons.mp nodup
    cases i with
    | zero =>
      cases found
      rw [write, Function.update_self]
    | succ i =>
      rw [List.getElem?_cons_succ] at found
      have other : bit ≠ first := fun same => fresh (same ▸ List.mem_of_getElem? found)
      rw [write, Function.update_of_ne other, ih nodup found, Nat.testBit_succ]

end Bit

theorem Encoding.ofDigits_testBit {width n : Nat} (bound : n < 2 ^ width) :
    ofDigits ((List.range width).map n.testBit) = n := by
  induction width generalizing n with
  | zero =>
    have : n = 0 := by simpa using bound
    subst this
    rfl
  | succ width ih =>
    have tail : (List.range width).map (fun i => n.testBit (i + 1)) =
        (List.range width).map (n / 2).testBit :=
      List.map_congr_left fun i _ => Nat.testBit_succ n i
    rw [List.range_succ_eq_map, List.map_cons, List.map_map]
    show (n.testBit 0).toNat + 2 * ofDigits ((List.range width).map fun i => n.testBit (i + 1)) = n
    rw [tail, ih (by omega), Nat.testBit_zero]
    by_cases odd : n % 2 = 1
    · simp only [odd, decide_true, Bool.toNat_true]
      omega
    · simp only [odd, decide_false, Bool.toNat_false]
      omega

/-! ### Blocks -/

namespace Encoding

variable {e : Encoding} {name other : String} {b : Block} {bit : Bit} {place : Nat}
  {v : String → Nat}

def bitsOf (e : Encoding) (name : String) : List Bit :=
  match e.block? name with
  | some b => b.bits
  | none => []

theorem bitsOf_of_block? (found : e.block? name = some b) : e.bitsOf name = b.bits := by
  rw [bitsOf, found]

theorem exists_place_of_mem_bitsOf (mem : bit ∈ e.bitsOf name) :
    ∃ (b : Block) (place : Nat), e.block? name = some b ∧ b.bits[place]? = some bit := by
  cases found : e.block? name with
  | none =>
    rw [bitsOf, found] at mem
    exact absurd mem List.not_mem_nil
  | some b =>
    rw [bitsOf_of_block? found] at mem
    obtain ⟨place, here⟩ := List.mem_iff_getElem?.mp mem
    exact ⟨b, place, rfl, here⟩

def codes (e : Encoding) (name : String) : Nat :=
  2 ^ (e.bitsOf name).length

def arityOf (e : Encoding) (name : String) : Nat :=
  match e.block? name with
  | some b => b.arity
  | none => 0

theorem arityOf_of_block? (found : e.block? name = some b) : e.arityOf name = b.arity := by
  rw [arityOf, found]

theorem Encodes.flatMap_bitsOf {arities : List (String × Nat)} (encodes : e.Encodes arities) :
    (arities.map Prod.fst).flatMap e.bitsOf = (List.range' 1 e.size).map Bit.mk := by
  rw [encodes.size_eq, ← flatMap_bits_slots, ← map_name_slots 1, List.flatMap_map]
  exact List.flatMap_congr fun s mem =>
    bitsOf_of_block? (encodes.block?_eq_some.mpr ⟨s, mem, rfl, rfl⟩)

namespace Sound

variable (sound : e.Sound)

include sound

theorem exists_slot (found : e.block? name = some b) : ∃ s : Slot, s.block = b := by
  obtain ⟨arities, encodes⟩ := sound
  obtain ⟨s, -, -, same⟩ := encodes.block?_eq_some.mp found
  exact ⟨s, same⟩

theorem length_bits (found : e.block? name = some b) : b.bits.length = bitsFor b.arity := by
  obtain ⟨s, rfl⟩ := sound.exists_slot found
  simp [Slot.block, Slot.bits, Slot.width]

theorem nodup_bits (found : e.block? name = some b) : b.bits.Nodup := by
  obtain ⟨s, rfl⟩ := sound.exists_slot found
  exact List.Nodup.map (fun _ _ same => congrArg Bit.id same) List.nodup_range'

theorem nodup_bitsOf (name : String) : (e.bitsOf name).Nodup := by
  cases found : e.block? name with
  | none => simp [bitsOf, found]
  | some b => exact bitsOf_of_block? found ▸ sound.nodup_bits found

theorem arity_le (found : e.block? name = some b) : b.arity ≤ 2 ^ b.bits.length := by
  rw [sound.length_bits found]
  exact le_two_pow_bitsFor b.arity

theorem arityOf_le_codes (name : String) : e.arityOf name ≤ e.codes name := by
  cases found : e.block? name with
  | none => simp [arityOf, found]
  | some b =>
    rw [codes, arityOf_of_block? found, bitsOf_of_block? found]
    exact sound.arity_le found

theorem ownedBit?_iff {o : OwnedBit} : e.ownedBit? bit = some o ↔
    o.bit = bit ∧ ∃ b, e.block? o.owner = some b ∧ b.bits[o.place]? = some bit := by
  obtain ⟨arities, encodes⟩ := sound
  exact encodes.ownedBit?_iff

theorem ownedBit?_of_getElem? (found : e.block? name = some b)
    (here : b.bits[place]? = some bit) : e.ownedBit? bit = some ⟨name, place, bit⟩ :=
  sound.ownedBit?_iff.mpr ⟨rfl, b, found, here⟩

theorem handedOut (mem : bit ∈ e.bitsOf name) : 1 ≤ bit.id ∧ bit.id ≤ e.size := by
  obtain ⟨b, place, found, here⟩ := exists_place_of_mem_bitsOf mem
  have owned := sound.ownedBit?_of_getElem? found here
  obtain ⟨arities, encodes⟩ := sound
  exact encodes.exists_ownedBit?_iff.mp ⟨_, owned⟩

theorem proper_of_mem_bitsOf (mem : bit ∈ e.bitsOf name) : bit.Proper := by
  have bounds := sound.handedOut mem
  obtain ⟨arities, encodes⟩ := sound
  have := encodes.size_eq
  have := encodes.next_eq
  have := encodes.next_le
  exact ⟨by omega, by omega⟩

theorem owner_unique (mem : bit ∈ e.bitsOf name) (mem' : bit ∈ e.bitsOf other) : name = other := by
  obtain ⟨b, place, found, here⟩ := exists_place_of_mem_bitsOf mem
  obtain ⟨b', place', found', here'⟩ := exists_place_of_mem_bitsOf mem'
  have owned := sound.ownedBit?_of_getElem? found here
  rw [sound.ownedBit?_of_getElem? found' here'] at owned
  exact congrArg OwnedBit.owner (Option.some.inj owned.symm)

end Sound

/-! ### Codes -/

def code (e : Encoding) (v : String → Nat) (bit : Bit) : Bool :=
  match e.ownedBit? bit with
  | some o => (v o.owner).testBit o.place
  | none => false

theorem code_of_getElem? (sound : e.Sound) (found : e.block? name = some b)
    (here : b.bits[place]? = some bit) (v : String → Nat) :
    e.code v bit = (v name).testBit place := by
  rw [code, sound.ownedBit?_of_getElem? found here]

theorem code_congr (sound : e.Sound) (mem : bit ∈ e.bitsOf name) {u : String → Nat}
    (same : u name = v name) : e.code u bit = e.code v bit := by
  obtain ⟨b, place, found, here⟩ := exists_place_of_mem_bitsOf mem
  rw [code_of_getElem? sound found here, code_of_getElem? sound found here, same]

theorem code_update (sound : e.Sound) (found : e.block? name = some b) (v : String → Nat)
    (n : Nat) : e.code (Function.update v name n) = Bit.write b.bits n (e.code v) := by
  funext bit
  by_cases inBlock : bit ∈ b.bits
  · obtain ⟨place, here⟩ := List.mem_iff_getElem?.mp inBlock
    rw [Bit.write_of_getElem? (sound.nodup_bits found) here, code_of_getElem? sound found here,
      Function.update_self]
  · rw [Bit.write_of_notMem inBlock, code, code]
    cases owned : e.ownedBit? bit with
    | none => rfl
    | some o =>
      have other : o.owner ≠ name := fun same => by
        obtain ⟨-, b', found', here⟩ := sound.ownedBit?_iff.mp owned
        obtain rfl : b' = b := Option.some.inj (found'.symm.trans (same ▸ found))
        exact inBlock (List.mem_of_getElem? here)
      simp only [Function.update_of_ne other]

theorem code_bits (sound : e.Sound) (found : e.block? name = some b) (v : String → Nat) :
    b.bits.map (e.code v) = (List.range b.bits.length).map (v name).testBit := by
  refine List.ext_getElem (by simp) fun place bound _ => ?_
  rw [List.length_map] at bound
  simp [code_of_getElem? sound found (List.getElem?_eq_getElem bound)]

theorem ofDigits_code (sound : e.Sound) (inCodes : v name < e.codes name) :
    ofDigits ((e.bitsOf name).map (e.code v)) = v name := by
  cases found : e.block? name with
  | none =>
    simp only [codes, bitsOf, found, List.length_nil, Nat.pow_zero, Nat.lt_one_iff] at inCodes
    simp [bitsOf, found, ofDigits, inCodes]
  | some b =>
    rw [codes, bitsOf_of_block? found] at inCodes
    rw [bitsOf_of_block? found, code_bits sound found, ofDigits_testBit inCodes]

end Encoding

end BayesDiagram
