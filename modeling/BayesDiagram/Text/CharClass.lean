/-! Classes of characters as lists of closed ranges of code points. -/
namespace BayesDiagram

abbrev CharClass := List (Nat × Nat)

def CharClass.has (ranges : CharClass) (c : Char) : Bool :=
  ranges.any fun range => range.1 ≤ c.toNat && c.toNat ≤ range.2

end BayesDiagram
