import BayesDiagram.Network.DependencyGraph

/-! Elimination orders: the greedy min-fill order on the moral graph, an order completed from a
list of names, and the check that a list is an order of the variables. -/
namespace BayesDiagram

abbrev Neighbourhoods := Std.ExtTreeMap String NameSet

namespace Neighbourhoods

def neighbours (g : Neighbourhoods) (name : String) : NameSet :=
  g.getD name ∅

def link (g : Neighbourhoods) (a b : String) : Neighbourhoods :=
  if a = b then g
  else
    let g : Neighbourhoods := g.insert a ((g.neighbours a).insert b)
    g.insert b ((g.neighbours b).insert a)

def connect (g : Neighbourhoods) : List String → Neighbourhoods
  | [] => g
  | name :: names => (names.foldl (link · name) g).connect names

def unlinkedPairs (g : Neighbourhoods) : List String → Nat
  | [] => 0
  | name :: names =>
    names.countP (!(g.neighbours name).contains ·) + g.unlinkedPairs names

def fillIn (g : Neighbourhoods) (name : String) : Nat :=
  g.unlinkedPairs (g.neighbours name).toList

def degree (g : Neighbourhoods) (name : String) : Nat :=
  (g.neighbours name).size

def compareCost (g : Neighbourhoods) (a b : String) : Ordering :=
  (compare (g.fillIn a) (g.fillIn b)).then
    ((compare (g.degree a) (g.degree b)).then (compare a b))

def cheapest? (g : Neighbourhoods) : Option String :=
  g.keys.foldl (fun best name =>
    match best with
    | none => some name
    | some best => if g.compareCost name best = .lt then some name else some best) none

def eliminate (g : Neighbourhoods) (name : String) : Neighbourhoods :=
  let names := (g.neighbours name).toList
  let unlinked := fun (g : Neighbourhoods) other => g.insert other ((g.neighbours other).erase name)
  connect (names.foldl unlinked (g.erase name)) names

def greedyOrder : (count : Nat) → Neighbourhoods → List String
  | 0, _ => []
  | count + 1, g =>
    match g.cheapest? with
    | none => []
    | some name => name :: greedyOrder count (g.eliminate name)

end Neighbourhoods

namespace DependencyGraph

variable {σ : Type}

def moralGraph (g : DependencyGraph) : Neighbourhoods :=
  g.names.foldl (fun m name => m.connect (name :: g.parentsOf name))
    (.ofList (g.names.map (·, ∅)))

def minFillOrder (g : DependencyGraph) : List String :=
  Neighbourhoods.greedyOrder g.size g.moralGraph

/-- The listed variables, each at its first mention, and then the others in the order of their
addition; names of no variable are skipped. -/
def completedOrder (listed : List String) (g : DependencyGraph) : List String :=
  (listed.filter g.contains ++ g.names).eraseDups

def checkOrder (g : DependencyGraph) (order : List String) : Except (Error σ) Unit :=
  match go [] order with
  | some defect => .error (.invalidOrder defect)
  | none => .ok ()
where
  go (seen : List String) : List String → Option OrderDefect
    | [] => (g.names.find? (!seen.contains ·)).map .missing
    | name :: rest =>
      if !g.contains name then some (.unknown name)
      else if seen.contains name then some (.repeated name)
      else go (name :: seen) rest

end DependencyGraph

end BayesDiagram
