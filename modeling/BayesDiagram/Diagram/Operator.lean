import BayesDiagram.Number.Arithmetic

/-! The binary operators on diagrams and what each does to two constants. -/
namespace BayesDiagram

inductive Operator where
  | product
  | sum
  | difference
  | min
  | max
  | divide
deriving DecidableEq, Repr

namespace Operator

variable {σ κ : Type} [Coefficient σ κ]

def compute : Operator → κ → κ → κ
  | product, a, b => a * b
  | sum, a, b => a + b
  | difference, a, b => a - b
  | min, a, b => Coefficient.least a b
  | max, a, b => Coefficient.greatest a b
  | divide, a, b => a / b

def isCommutative : Operator → Bool
  | product | sum | min | max => true
  | difference | divide => false

def symbol : Operator → String
  | product => "*"
  | sum => "+"
  | difference => "-"
  | min => "min"
  | max => "max"
  | divide => "/"

def rank : Operator → Nat
  | product => 0
  | sum => 1
  | difference => 2
  | min => 3
  | max => 4
  | divide => 5

theorem rank_injective {a b : Operator} (equal : a.rank = b.rank) : a = b := by
  cases a <;> cases b <;> first | rfl | exact absurd equal (by decide)

instance : Ord Operator := ⟨compareOn rank⟩

end Operator

end BayesDiagram
