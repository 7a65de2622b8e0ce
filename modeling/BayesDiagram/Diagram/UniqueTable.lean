import BayesDiagram.Diagram.Edge
import Std.Data.TreeMap

/-! The unique table: items kept once up to a tolerance, in cells numbered from one. A cell keeps
its item until it is dropped; dropped cells are filled again, the lowest first. The occupied cells
of a bucket form a chain, each cell with a link to the next one. -/
namespace BayesDiagram

structure Cell (α : Type) where
  item : α
  /-- The next cell of the chain, `0` behind the last one. -/
  next : Nat

structure UniqueTable (σ α : Type) where
  bits : Nat
  quantum : σ
  tolerance : σ
  /-- The cell numbered `i` is the entry `i - 1`; vacant cells hold nothing. -/
  cells : Array (Option (Cell α))
  heads : Std.TreeMap Nat Nat
  /-- No cell below this one is vacant. -/
  firstFree : Nat
  size : Nat

namespace UniqueTable

variable {σ α : Type}

def create [Scalar σ] (bits : Nat) (quantum tolerance : σ) : Except Fault (UniqueTable σ α) :=
  if 31 < bits then .error .tooManyBuckets
  else if 0 < quantum then .ok ⟨bits, quantum, tolerance, #[], ∅, 1, 0⟩
  else .error .quantumNotPositive

def slot? (t : UniqueTable σ α) : Nat → Option (Cell α)
  | 0 => none
  | i + 1 => t.cells[i]?.join

def cell? (t : UniqueTable σ α) (i : Nat) : Option α :=
  (t.slot? i).map Cell.item

def isOccupied (t : UniqueTable σ α) (i : Nat) : Bool :=
  (t.cell? i).isSome

def value (t : UniqueTable σ α) : Nat → Except Fault α
  | 0 => .error .cellZero
  | i + 1 =>
    match t.cells[i]? with
    | none => .error (.cellOutOfBounds (t.cells.size + 1) (i + 1))
    | some none => .error (.cellVacant (i + 1))
    | some (some cell) => .ok cell.item

def indices (t : UniqueTable σ α) : List Nat :=
  (List.range' 1 t.cells.size).filter t.isOccupied

def vacantFrom (t : UniqueTable σ α) (start : Nat) : Nat → Nat
  | 0 => start
  | count + 1 => if t.isOccupied start then t.vacantFrom (start + 1) count else start

def nextCell (t : UniqueTable σ α) : Nat :=
  t.vacantFrom t.firstFree (t.cells.size + 1 - t.firstFree)

def head (t : UniqueTable σ α) (bucket : Nat) : Nat :=
  t.heads.getD bucket 0

def place (t : UniqueTable σ α) (i : Nat) (item : α) : UniqueTable σ α :=
  { t with
    cells := if i = t.cells.size + 1 then t.cells.push (some ⟨item, 0⟩)
      else t.cells.setIfInBounds (i - 1) (some ⟨item, 0⟩) }

def without (t : UniqueTable σ α) (keep : Nat → Bool) (dropped : List Nat) : UniqueTable σ α :=
  { t with
    cells := t.cells.mapIdx fun i cell => if keep (i + 1) then cell else none
    heads := ∅
    firstFree := dropped.foldl min t.firstFree
    size := t.size - dropped.length }

variable [Canonical σ α]

def bucket (t : UniqueTable σ α) (item : α) : Nat :=
  (Canonical.coarseHash t.quantum item).toNat % 1 <<< t.bits

/-- The first cell that matches an item, of those that at most `steps` links from a cell lead to. -/
def search (t : UniqueTable σ α) (item : α) : (steps : Nat) → Nat → Option Nat
  | 0, _ => none
  | steps + 1, i =>
    match t.slot? i with
    | none => none
    | some cell =>
      if Canonical.matching t.tolerance item cell.item then some i
      else t.search item steps cell.next

def find? (t : UniqueTable σ α) (item : α) : Option Nat :=
  t.search item t.cells.size (t.head (t.bucket item))

def link (t : UniqueTable σ α) (i : Nat) : UniqueTable σ α :=
  match t.slot? i with
  | none => t
  | some cell =>
    let bucket := t.bucket cell.item
    { t with
      cells := t.cells.setIfInBounds (i - 1) (some { cell with next := t.head bucket })
      heads := t.heads.insert bucket i }

def insertNew (t : UniqueTable σ α) (item : α) : UniqueTable σ α :=
  let i := t.nextCell
  { t.place i item with firstFree := i + 1, size := t.size + 1 }.link i

def put (t : UniqueTable σ α) (item : α) : Nat × UniqueTable σ α :=
  match t.find? item with
  | some i => (i, t)
  | none => (t.nextCell, t.insertNew item)

/-- Drops the occupied cells that are not to be kept; the first part is their number. The kept cells
are linked anew, in increasing order. -/
def retain (t : UniqueTable σ α) (keep : Nat → Bool) : Nat × UniqueTable σ α :=
  let (kept, dropped) := t.indices.partition keep
  (dropped.length, kept.foldl link (t.without keep dropped))

end UniqueTable

end BayesDiagram
