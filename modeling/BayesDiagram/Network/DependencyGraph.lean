import BayesDiagram.Closure
import BayesDiagram.Failure
import Std.Data.ExtTreeMap
import Std.Data.ExtTreeSet

/-! The dependency graph of a network: named variables with links from parents to children. -/
namespace BayesDiagram

abbrev NameSet := Std.ExtTreeSet String

structure DependencyGraph where
  names : List String := []
  /-- The links from parent to child, the latest first. -/
  links : List (String × String) := []

namespace DependencyGraph

variable {σ : Type}

def contains (g : DependencyGraph) (name : String) : Bool :=
  g.names.contains name

def size (g : DependencyGraph) : Nat :=
  g.names.length

def add (g : DependencyGraph) (name : String) : DependencyGraph :=
  if g.contains name then g else { g with names := g.names ++ [name] }

def index? (g : DependencyGraph) (name : String) : Option Nat :=
  g.names.idxOf? name

def require (g : DependencyGraph) (name : String) : Except (Error σ) Unit :=
  if g.contains name then .ok () else .error (.unknownVariable name)

def link (g : DependencyGraph) (parent child : String) : Except (Error σ) DependencyGraph := do
  g.require parent
  g.require child
  return if g.links.contains (parent, child) then g
    else { g with links := (parent, child) :: g.links }

def parentsOf (g : DependencyGraph) (name : String) : List String :=
  (g.links.filter (·.2 == name)).map Prod.fst

def childrenOf (g : DependencyGraph) (name : String) : List String :=
  (g.links.filter (·.1 == name)).map Prod.snd

def parents (g : DependencyGraph) (name : String) : Except (Error σ) NameSet := do
  g.require name
  return .ofList (g.parentsOf name)

def children (g : DependencyGraph) (name : String) : Except (Error σ) NameSet := do
  g.require name
  return .ofList (g.childrenOf name)

def ancestors (g : DependencyGraph) (seeds : List String) : Except (Error σ) NameSet := do
  seeds.forM g.require
  let reached ← closure (fun name => .ok (g.parentsOf name)) (.ofList g.names) ∅ seeds
  return .ofList reached.toList

/-! ### Cycles -/

/-- A way to put the variables in an order in which none comes before its parents, or to name a
variable on a cycle. -/
abbrev Toposort :=
  DependencyGraph → Except String (List String)

def checkAcyclicWith (sort : Toposort) (g : DependencyGraph) : Except (Error σ) Unit :=
  match sort g with
  | .error name => .error (.cyclicDependency name)
  | .ok _ => .ok ()

structure Search where
  found : List String := []
  left : List String := []

/-- Follows the links down from a variable that was not found before, the oldest link first. A
variable that is its own child is refused. The depth never exceeds the number of variables. -/
def descend (g : DependencyGraph) : (depth : Nat) → Search → String → Except String Search
  | 0, search, _ => .ok search
  | depth + 1, search, name =>
    if search.found.contains name then .ok search
    else if (g.childrenOf name).contains name then .error name
    else do
      let search ← (g.childrenOf name).reverse.foldlM (g.descend depth)
        { search with found := name :: search.found }
      return { search with left := name :: search.left }

/-- All variables, the one that the search left last in front. On a graph without cycles every
variable comes after its parents. -/
def leavingOrder (g : DependencyGraph) : Except String (List String) :=
  (g.names.foldlM (g.descend g.size) {}).map Search.left

/-- The oldest parent, of the first variable in the list that has one, that is not listed before
that variable. -/
def misplacedParent? (g : DependencyGraph) (before : List String) : List String → Option String
  | [] => none
  | name :: rest =>
    let before := name :: before
    match ((g.parentsOf name).filter (!before.contains ·)).getLast? with
    | some parent => some parent
    | none => g.misplacedParent? before rest

def toposort : Toposort := fun g => do
  let order ← g.leavingOrder
  match g.misplacedParent? [] order with
  | some name => throw name
  | none => return order

def checkAcyclic (g : DependencyGraph) : Except (Error σ) Unit :=
  g.checkAcyclicWith toposort

end DependencyGraph

end BayesDiagram
