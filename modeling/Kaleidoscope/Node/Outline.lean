import Kaleidoscope.Node.Defect

/-! The outline of a tree: a line for each node, with its role in front of it. The children of a
call are indented by four spaces and all others by two. -/

set_option autoImplicit false

namespace Kaleidoscope.Node

def margin (indent : Int) : String := String.ofList (List.replicate indent.toNat ' ')

def argumentRole (i : Nat) : String := s!"arg[{i}]"

def headline : Node → String
  | .missing | .bare .. | .textual .. => ""
  | .number v _ => s!"Number({v.numeral})"
  | .var name _ => s!"Variable({name})"
  | .binary operator .. => s!"BinaryOp({operator})"
  | .call callee .. => s!"Call({callee})"
  | .prototype name params _ =>
    let list := ", ".intercalate params
    s!"Prototype({name}, params=[{list}])"
  | .function proto .. => s!"Function({proto.shownName})"

mutual

def lines (indent : Int) (label : String) : Node → List String
  | n@(.binary _ left right _) =>
    (margin indent ++ label ++ n.headline) ::
      (lines (indent + 2) "left: " left ++ lines (indent + 2) "right: " right)
  | n@(.call _ args _) =>
    (margin indent ++ label ++ n.headline) :: argumentLines (indent + 4) 0 args
  | n@(.function proto body _) =>
    (margin indent ++ label ++ n.headline) ::
      (lines (indent + 2) "proto: " proto ++ lines (indent + 2) "body: " body)
  | n => [margin indent ++ label ++ n.headline]

def argumentLines (indent : Int) (i : Nat) : List Node → List String
  | [] => []
  | a :: as => lines indent (argumentRole i ++ ": ") a ++ argumentLines indent (i + 1) as

end

mutual

def outlineDefect? : Node → Option Defect
  | n@.missing => some (.unprintable n.className)
  | n@(.bare ..) => some (.unprintable n.className)
  | .textual .. => some .noInteger
  | .binary _ left right _ => left.outlineDefect? <|> right.outlineDefect?
  | .call _ args _ => outlineDefectAmong? args
  | .function proto body _ =>
    if proto.name?.isNone then some (.nameless proto.className)
    else proto.outlineDefect? <|> body.outlineDefect?
  | _ => none

def outlineDefectAmong? : List Node → Option Defect
  | [] => none
  | a :: as => a.outlineDefect? <|> outlineDefectAmong? as

end

/-- The outline at an indentation, with a label in front of the first line's text. -/
def outlineAt (indent : Int) (label : String) (n : Node) : Except Defect String :=
  unlessDefective n.outlineDefect? ("\n".intercalate (n.lines indent label))

def outline (n : Node) : Except Defect String := n.outlineAt 0 ""

end Kaleidoscope.Node
