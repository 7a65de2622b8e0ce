import BayesDiagram.Diagram.Inspect

/-! Diagrams as Graphviz text: the terminal at the bottom, one rank of nodes for each bit, the
roots on top. -/
namespace BayesDiagram

structure DrawingStyle where
  nodeShape : String := "circle"
  terminalShape : String := "square"
  rootShape : String := "rect"
  highStyle : String := "solid"
  lowStyle : String := "dashed"
  subscripts : Bool := true
  places : Nat := 4

namespace Drawing

variable {σ κ : Type} [Coefficient σ κ] [DecimalText σ]

def edgeLabel (places : Nat) (e : Edge κ) : String :=
  let text (x : κ) := DecimalText.fixed places (Coefficient.toScalar x)
  if e.isConstant then text e.offset else s!"{text e.offset} + {text e.scale}·"

def rank (name : String) (lines : List String) : List String :=
  ["\x7b rank=" ++ name] ++ lines ++ ["\x7d"]

def nodeLine (style : DrawingStyle) (id : NodeId) (bit : Bit) : String :=
  let label := if style.subscripts then s!"<b<SUB>{bit.id}</SUB>>" else s!"\"b{bit.id}\""
  s!"{id.index} [label={label}];"

def edgeLines (style : DrawingStyle) (id : NodeId) (node : Node κ) : List String :=
  let line (e : Edge κ) (lineStyle : String) :=
    s!"{id.index} -> {e.node.index} [style={lineStyle}, label=\"{edgeLabel style.places e}\"];"
  [line node.high style.highStyle, line node.low style.lowStyle]

end Drawing

variable {σ κ : Type} [Coefficient σ κ] [DecimalText σ]

/-- The text of a drawing of some diagrams, in which shared nodes appear once. -/
def Store.draw (s : Store σ κ) (roots : List Root) (style : DrawingStyle) :
    Except Fault String := do
  let tops ← roots.mapM s.edge
  let ids ← s.descendants (tops.map Edge.node)
  let nodes ← (ids.filter (!·.isTerminal)).mapM fun id => (s.node id).map (id, ·)
  let bits := (Std.TreeSet.ofList (nodes.map (·.2.bit.id))).toList.map Bit.mk
  let levels := bits.map fun bit => nodes.filter (·.2.bit == bit)
  let lines :=
    ["digraph \x7b", s!"node [shape={style.nodeShape}];"] ++
    Drawing.rank "sink" [s!"0 [shape={style.terminalShape}, label=\"0\"];"] ++
    levels.flatMap (fun level =>
      Drawing.rank "same" (level.map fun (id, node) => Drawing.nodeLine style id node.bit)) ++
    levels.flatMap (fun level =>
      level.flatMap fun (id, node) => Drawing.edgeLines style id node) ++
    Drawing.rank "source" (roots.zipIdx.map fun (root, i) =>
      s!"r{i} [shape={style.rootShape}, label=\"{root.text}\"];") ++
    tops.zipIdx.map (fun (e, i) =>
      s!"r{i} -> {e.node.index} [label=\"{Drawing.edgeLabel style.places e}\"];") ++
    ["\x7d"]
  return String.join (lines.map (· ++ "\n"))

end BayesDiagram
