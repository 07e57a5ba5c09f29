import Kaleidoscope.Diagram
import Kaleidoscope.Node.Outline
import Kaleidoscope.Node.Surface

/-! Drawing trees. Nodes are numbered from the root down and from left to right, across all the
trees of a diagram, and the edge to a child follows all that is below the child. -/

set_option autoImplicit false

namespace Kaleidoscope.Node

/-- Kind and payload, on two lines that the drawing program breaks at the backslash. -/
def label : Node → String
  | .number v _ => s!"Number\\n{v.numeral}"
  | .var name _ => s!"Variable\\n{name}"
  | .binary operator .. => s!"BinaryOp\\n{operator}"
  | .call callee .. => s!"Call\\n{callee}"
  | .prototype name params _ => s!"Prototype\\n{signature name params}"
  | .function proto .. => s!"Function\\n{proto.shownName}"
  | n => n.className

mutual

def count : Node → Nat
  | .binary _ left right _ => 1 + left.count + right.count
  | .call _ args _ => 1 + countAll args
  | .function proto body _ => 1 + proto.count + body.count
  | _ => 1

def countAll : List Node → Nat
  | [] => 0
  | a :: as => a.count + countAll as

end

mutual

/-- The items of a tree whose root has number `id`. -/
def draw (id : Nat) : Node → List DiagramItem
  | n@(.binary _ left right _) =>
    let second := id + 1 + left.count
    .node id n.label ::
      (draw (id + 1) left ++ .edge id (id + 1) "left" ::
        (draw second right ++ [.edge id second "right"]))
  | n@(.call _ args _) => .node id n.label :: drawArguments id (id + 1) 0 args
  | n@(.function proto body _) =>
    let second := id + 1 + proto.count
    .node id n.label ::
      (draw (id + 1) proto ++ .edge id (id + 1) "proto" ::
        (draw second body ++ [.edge id second "body"]))
  | n => [.node id n.label]

def drawArguments (parent id i : Nat) : List Node → List DiagramItem
  | [] => []
  | a :: as =>
    draw id a ++ .edge parent id (argumentRole i) :: drawArguments parent (id + a.count) (i + 1) as

end

def kindName : Node → String
  | .missing => ""
  | .bare kind _ => kind.name
  | .textual .. | .number .. => NodeKind.number.name
  | .var .. => NodeKind.reference.name
  | .binary .. => NodeKind.binary.name
  | .call .. => NodeKind.call.name
  | .prototype .. => NodeKind.prototype.name
  | .function .. => NodeKind.function.name

def title : Node → String
  | .function proto _ _ => proto.shownName
  | .prototype name _ _ => s!"extern {name}"
  | n => n.kindName

def clusters (id : Nat) : List Node → List Cluster
  | [] => []
  | n :: ns => ⟨n.title, n.draw id⟩ :: clusters (id + n.count) ns

mutual

def drawingDefect? : Node → Option Defect
  | .textual .. => some .noInteger
  | .binary _ left right _ => left.drawingDefect? <|> right.drawingDefect?
  | .call _ args _ => drawingDefectAmong? args
  | .function proto body _ =>
    if proto.name?.isNone then some (.nameless proto.className)
    else proto.drawingDefect? <|> body.drawingDefect?
  | _ => none

def drawingDefectAmong? : List Node → Option Defect
  | [] => none
  | a :: as => a.drawingDefect? <|> drawingDefectAmong? as

end

/-- A cluster needs a tree. -/
def rootDefect? : Node → Option Defect
  | .missing => some .kindless
  | n => n.drawingDefect?

def diagram (trees : List Node) : Except Defect Diagram :=
  unlessDefective (trees.findSome? rootDefect?) ⟨clusters 0 trees⟩

def diagramOf : Node → Except Defect Diagram
  | .missing => .error .nothing
  | n => diagram [n]

end Kaleidoscope.Node
