import BayesDiagram.Inference.Compile
import BayesDiagram.Proofs.Diagram.Building
import BayesDiagram.Proofs.Inference.Roles
import Mathlib.Algebra.BigOperators.Group.List.Basic

/-! Paths through the bits of a scope. However the bits are ordered, a path decodes to the values
that the bits of each block spell. -/
namespace BayesDiagram

variable {e : Encoding} {scope : List String} {a : Bit → Bool} {position : Nat}

namespace ScopeBit

def weight (a : Bit → Bool) (position : Nat) (b : ScopeBit) : Nat :=
  if a b.bit ∧ b.position = position then 1 <<< b.place else 0

def ofBlock (position : Nat) (bits : List Bit) : List ScopeBit :=
  bits.zipIdx.map fun (bit, place) => ⟨bit, position, place⟩

def ofBlocks (first : Nat) (blocks : List (List Bit)) : List ScopeBit :=
  (blocks.zipIdx first).flatMap fun (bits, position) => ofBlock position bits

theorem decode_map (bits : List ScopeBit) (length : Nat) (a : Bit → Bool) :
    decode bits length ((bits.map ScopeBit.bit).map a) =
      (List.range length).map fun position => (bits.map (weight a position)).sum := by
  refine List.map_congr_left fun position _ => ?_
  induction bits with
  | nil => rfl
  | cons b bits ih =>
    rw [List.map_cons, List.map_cons, List.zip_cons_cons, List.foldr_cons, ih, List.map_cons,
      List.sum_cons, weight]
    dsimp only
    split
    · rfl
    · exact (Nat.zero_add _).symm

theorem sum_ofBlock (bits : List Bit) :
    ((ofBlock position bits).map (weight a position)).sum = Encoding.ofDigits (bits.map a) := by
  suffices shifted : ∀ start, ((bits.zipIdx start).map fun (bit, place) =>
      weight a position ⟨bit, position, place⟩).sum = 2 ^ start * Encoding.ofDigits (bits.map a) by
    rw [ofBlock, List.map_map]
    exact (shifted 0).trans (Nat.one_mul _)
  induction bits with
  | nil => exact fun start => rfl
  | cons bit bits ih =>
    intro start
    rw [List.zipIdx_cons, List.map_cons, List.sum_cons, ih, Nat.pow_succ]
    show weight a position ⟨bit, position, start⟩ + _ =
      2 ^ start * ((a bit).toNat + 2 * Encoding.ofDigits (bits.map a))
    rw [weight, Nat.mul_add, Nat.mul_assoc]
    cases a bit with
    | true => simp [Nat.one_shiftLeft]
    | false => simp

theorem sum_eq_zero {bits : List ScopeBit} (others : ∀ b ∈ bits, b.position ≠ position) :
    (bits.map (weight a position)).sum = 0 := by
  refine List.sum_eq_zero fun value mem => ?_
  obtain ⟨b, inBits, rfl⟩ := List.mem_map.mp mem
  exact if_neg fun both => others b inBits both.2

theorem position_of_mem_ofBlock {b : ScopeBit} {bits : List Bit}
    (mem : b ∈ ofBlock position bits) : b.position = position := by
  obtain ⟨_, -, rfl⟩ := List.mem_map.mp mem
  rfl

theorem le_position_of_mem_ofBlocks {b : ScopeBit} {first : Nat} {blocks : List (List Bit)}
    (mem : b ∈ ofBlocks first blocks) : first ≤ b.position := by
  obtain ⟨⟨bits, index⟩, indexed, inBlock⟩ := List.mem_flatMap.mp mem
  rw [position_of_mem_ofBlock inBlock]
  exact (List.mem_zipIdx indexed).1

theorem sum_ofBlocks {blocks : List (List Bit)} {first offset : Nat} {bits : List Bit}
    (found : blocks[offset]? = some bits) :
    ((ofBlocks first blocks).map (weight a (first + offset))).sum =
      Encoding.ofDigits (bits.map a) := by
  induction blocks generalizing first offset with
  | nil => cases found
  | cons block blocks ih =>
    have apart : ofBlocks first (block :: blocks) =
        ofBlock first block ++ ofBlocks (first + 1) blocks := rfl
    rw [apart, List.map_append, List.sum_append]
    cases offset with
    | zero =>
      cases found
      rw [Nat.add_zero, sum_ofBlock, sum_eq_zero fun b mem => ?_, Nat.add_zero]
      have := le_position_of_mem_ofBlocks mem
      omega
    | succ offset =>
      rw [List.getElem?_cons_succ] at found
      rw [sum_eq_zero fun b mem => ?_, Nat.zero_add,
        show first + (offset + 1) = first + 1 + offset by omega, ih found]
      rw [position_of_mem_ofBlock mem]
      omega

theorem bits_ofBlocks (blocks : List (List Bit)) (first : Nat) :
    (ofBlocks first blocks).map ScopeBit.bit = blocks.flatten := by
  induction blocks generalizing first with
  | nil => rfl
  | cons block blocks ih =>
    have apart : ofBlocks first (block :: blocks) =
        ofBlock first block ++ ofBlocks (first + 1) blocks := rfl
    have own : (ofBlock first block).map ScopeBit.bit = block := by
      rw [ofBlock, List.map_map]
      exact List.zipIdx_map_fst 0 block
    rw [apart, List.map_append, own, ih, List.flatten_cons]

end ScopeBit

namespace Compiler

def sortedBits (e : Encoding) (scope : List String) : List ScopeBit :=
  (ScopeBit.ofBlocks 0 (scope.map e.bitsOf)).mergeSort (·.bit.id ≤ ·.bit.id)

theorem scopeBits_eq {σ : Type} {c : Compiler σ}
    (known : ∀ name ∈ scope, ∃ b, c.encoding.block? name = some b) :
    c.scopeBits scope = .ok (sortedBits c.encoding scope) := by
  rw [scopeBits, mapM_of_forall fun name mem => ?_]
  · rfl
  · obtain ⟨b, found⟩ := known name mem
    exact Encoding.bits_of_block? found

theorem scopeBits_eq_ok {σ : Type} {c : Compiler σ} {bits : List ScopeBit}
    (run : c.scopeBits scope = .ok bits) : bits = sortedBits c.encoding scope := by
  obtain ⟨blocks, found, -⟩ := bind_eq_ok.mp run
  have known (name : String) (mem : name ∈ scope) : ∃ b, c.encoding.block? name = some b := by
    obtain ⟨bits, isBits⟩ := answer_of_mapM_eq_ok found mem
    obtain ⟨b, here, -⟩ := Encoding.bits_eq_ok.mp isBits
    exact ⟨b, here⟩
  exact Except.ok.inj (run.symm.trans (scopeBits_eq known))

theorem decode_sortedBits (e : Encoding) (scope : List String) (a : Bit → Bool) :
    ScopeBit.decode (sortedBits e scope) scope.length
        (((sortedBits e scope).map ScopeBit.bit).map a) =
      scope.map fun name => Encoding.ofDigits ((e.bitsOf name).map a) := by
  rw [ScopeBit.decode_map]
  refine List.ext_getElem? fun index => ?_
  rw [List.getElem?_map, List.getElem?_map]
  by_cases bound : index < scope.length
  · rw [List.getElem?_range bound, List.getElem?_eq_getElem bound, Option.map_some, Option.map_some,
      sortedBits, ((List.mergeSort_perm _ _).map _).sum_eq]
    have found : (scope.map e.bitsOf)[index]? = some (e.bitsOf scope[index]) := by
      rw [List.getElem?_map, List.getElem?_eq_getElem bound, Option.map_some]
    have sums : ((ScopeBit.ofBlocks 0 (scope.map e.bitsOf)).map
        (ScopeBit.weight a (0 + index))).sum = _ := ScopeBit.sum_ofBlocks found
    rw [Nat.zero_add] at sums
    rw [sums]
  · rw [List.getElem?_eq_none (by simpa using bound), List.getElem?_eq_none (by omega)]
    rfl

theorem mem_sortedBits {bit : Bit} :
    bit ∈ (sortedBits e scope).map ScopeBit.bit ↔ ∃ name ∈ scope, bit ∈ e.bitsOf name := by
  rw [sortedBits, ((List.mergeSort_perm _ _).map _).mem_iff, ScopeBit.bits_ofBlocks,
    ← List.mem_flatMap, List.flatMap_def]

theorem sorted_sortedBits (sound : e.Sound) (nodup : scope.Nodup) :
    ((sortedBits e scope).map ScopeBit.bit).Pairwise fun bit later => bit.id < later.id := by
  have increasing : (sortedBits e scope).Pairwise fun b later => b.bit.id ≤ later.bit.id := by
    refine (List.pairwise_mergeSort (fun a b c first second => ?_) (fun a b => ?_) _).imp
      of_decide_eq_true
    · exact decide_eq_true ((of_decide_eq_true first).trans (of_decide_eq_true second))
    · rcases Nat.le_total a.bit.id b.bit.id with le | ge
      · simp [le]
      · simp [ge]
  have distinct : ((sortedBits e scope).map ScopeBit.bit).Nodup := by
    rw [sortedBits, ((List.mergeSort_perm _ _).map _).nodup_iff, ScopeBit.bits_ofBlocks,
      ← List.flatMap_def, List.nodup_flatMap]
    refine ⟨fun name _ => sound.nodup_bitsOf name, nodup.imp fun differ bit mem mem' => ?_⟩
    exact differ (sound.owner_unique mem mem')
  refine List.pairwise_map.mpr ((increasing.and (List.pairwise_map.mp distinct)).imp ?_)
  rintro b later ⟨le, differ⟩
  exact Nat.lt_of_le_of_ne le fun same => differ (congrArg Bit.mk same)

end Compiler

end BayesDiagram
