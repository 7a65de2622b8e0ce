import BayesDiagram.Diagram.Edge
import BayesDiagram.Diagram.Operator
import Std.Data.TreeMap

/-! The computed table: results of earlier operations, with a count of the look-ups that found
one and of those that did not. -/
namespace BayesDiagram

structure ComputedTable (α β : Type) [Ord α] where
  entries : Std.TreeMap α β := ∅
  hits : Nat := 0
  misses : Nat := 0

namespace ComputedTable

variable {α β : Type} [Ord α]

def size (t : ComputedTable α β) : Nat :=
  t.entries.size

def lookup (t : ComputedTable α β) (key : α) : Option β × ComputedTable α β :=
  match t.entries[key]? with
  | some result => (some result, { t with hits := t.hits + 1 })
  | none => (none, { t with misses := t.misses + 1 })

def insert (t : ComputedTable α β) (key : α) (result : β) : ComputedTable α β :=
  { t with entries := t.entries.insert key result }

/-- Forgets all results; the counts stay. -/
def clear (t : ComputedTable α β) : ComputedTable α β :=
  { t with entries := ∅ }

@[simp] theorem lookup_fst (t : ComputedTable α β) (key : α) :
    (t.lookup key).1 = t.entries[key]? := by
  unfold lookup
  split <;> simp_all

@[simp] theorem lookup_snd_entries (t : ComputedTable α β) (key : α) :
    (t.lookup key).2.entries = t.entries := by
  unfold lookup
  split <;> rfl

end ComputedTable

structure ApplyKey where
  operator : Operator
  left : EdgeKey
  right : EdgeKey
deriving DecidableEq

instance : Ord ApplyKey :=
  ⟨compareLex (compareOn fun key => key.operator.rank)
    (compareLex (compareOn fun key => key.left) (compareOn fun key => key.right))⟩

structure RestrictKey where
  node : NodeId
  bit : Bit
  value : Bool
deriving DecidableEq

instance : Ord RestrictKey :=
  ⟨compareLex (compareOn fun key => key.node.index)
    (compareLex (compareOn fun key => key.bit.id) (compareOn fun key => key.value.toNat))⟩

instance : Std.TransOrd ApplyKey :=
  inferInstanceAs (Std.TransCmp (compareLex _ (compareLex _ _)))

instance : Std.TransOrd RestrictKey :=
  inferInstanceAs (Std.TransCmp (compareLex _ (compareLex _ _)))

instance : Std.LawfulEqOrd ApplyKey where
  eq_of_compare {a b} equal := by
    obtain ⟨ranks, operands⟩ := compareLex_eq_eq.mp equal
    obtain ⟨lefts, rights⟩ := compareLex_eq_eq.mp operands
    cases a
    cases b
    rw [ApplyKey.mk.injEq]
    exact ⟨Operator.rank_injective (Nat.compare_eq_eq.mp ranks),
      Std.LawfulEqOrd.eq_of_compare lefts, Std.LawfulEqOrd.eq_of_compare rights⟩

instance : Std.LawfulEqOrd RestrictKey where
  eq_of_compare {a b} equal := by
    obtain ⟨nodes, fixings⟩ := compareLex_eq_eq.mp equal
    obtain ⟨bits, values⟩ := compareLex_eq_eq.mp fixings
    obtain ⟨⟨node⟩, ⟨bit⟩, value⟩ := a
    obtain ⟨⟨node'⟩, ⟨bit'⟩, value'⟩ := b
    obtain rfl : node = node' := Nat.compare_eq_eq.mp nodes
    obtain rfl : bit = bit' := Nat.compare_eq_eq.mp bits
    have equal : value.toNat = value'.toNat := Nat.compare_eq_eq.mp values
    cases value <;> cases value' <;> first | rfl | exact absurd equal (by decide)

end BayesDiagram
