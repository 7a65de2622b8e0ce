import BayesDiagram.Diagram.Inspect
import BayesDiagram.Failure
import Std.Data.ExtTreeMap

/-! The binary encoding of variables. A variable with `n` values takes a block of as many bits as
it needs to number them; bit `i` of its block is the binary digit of weight `2 ^ i`. Blocks are
handed out one after the other, from identifier one on. -/
namespace BayesDiagram

def bitsFor (n : Nat) : Nat :=
  if n ≤ 1 then 0 else (n - 1).log2 + 1

structure OwnedBit where
  owner : String
  place : Nat
  bit : Bit
deriving DecidableEq

theorem covered_empty : ∀ name ∈ (∅ : Std.ExtTreeMap String (List Bit)),
    name ∈ (∅ : Std.ExtTreeMap String Nat) :=
  fun _ known => absurd known Std.ExtTreeMap.not_mem_empty

structure Encoding where
  /-- The first identifier not handed out. -/
  next : Nat := 1
  /-- The bits of each variable, the one of least weight first. -/
  blocks : Std.ExtTreeMap String (List Bit) := ∅
  arities : Std.ExtTreeMap String Nat := ∅
  ownedBits : List OwnedBit := []
  covered : ∀ name ∈ blocks, name ∈ arities := by exact covered_empty

structure Block where
  arity : Nat
  bits : List Bit

namespace Encoding

variable {σ : Type}

def handOut (owner : String) (state : Encoding × List Bit) (place : Nat) :
    Except Fault (Encoding × List Bit) :=
  let (e, block) := state
  let bit : Bit := ⟨e.next⟩
  if e.next < Bit.maxId then
    .ok ({ e with next := e.next + 1, ownedBits := e.ownedBits ++ [⟨owner, place, bit⟩] },
      block ++ [bit])
  else .error .identifiersExhausted

def record (e : Encoding) (name : String) (arity : Nat) (block : List Bit) : Encoding :=
  { e with
    arities := e.arities.insert name arity
    blocks := e.blocks.insert name block
    covered := fun other known => by
      rw [Std.ExtTreeMap.mem_insert] at known ⊢
      exact known.imp_right (e.covered other) }

def allocate (e : Encoding) (name : String) (arity : Nat) : Except Fault Encoding := do
  if name ∈ e.blocks then throw (.alreadyEncoded name)
  let (e, block) ← (List.range (bitsFor arity)).foldlM (handOut name) (e, [])
  return e.record name arity block

def block? (e : Encoding) (name : String) : Option Block :=
  if known : name ∈ e.blocks then
    have counted := e.covered name known
    some ⟨e.arities[name], e.blocks[name]⟩
  else none

def block (e : Encoding) (name : String) : Except (Error σ) Block :=
  match e.block? name with
  | some b => .ok b
  | none => .error (.unknownVariable name)

def bits (e : Encoding) (name : String) : Except (Error σ) (List Bit) :=
  (e.block name).map Block.bits

def ownedBit? (e : Encoding) (bit : Bit) : Option OwnedBit :=
  if bit.isTerminal then none else e.ownedBits[bit.id - 1]?

def size (e : Encoding) : Nat :=
  e.ownedBits.length

def encode (e : Encoding) (name : String) (index : Nat) : Except (Error σ) (List (Bit × Bool)) := do
  let b ← e.block name
  if index < b.arity then
    return b.bits.zipIdx.map fun (bit, place) => (bit, index.testBit place)
  else throw (.valueOutOfDomain name index b.arity)

def ofDigits (digits : List Bool) : Nat :=
  digits.foldr (fun digit n => digit.toNat + 2 * n) 0

/-- The value of a variable that an assignment of its bits stands for, if none is left open. -/
def decode (e : Encoding) (name : String) (assignment : Assignment) :
    Except (Error σ) (Option Nat) := do
  return ((← e.bits name).mapM assignment).map ofDigits

def expand (e : Encoding) (names : List String) : Except (Error σ) (List Bit) := do
  return (← names.mapM e.bits).flatten

end Encoding

end BayesDiagram
