import Kaleidoscope.Document
import Kaleidoscope.Node.Defect

/-! Trees as documents, positions included. A number that is not finite is kept as text, for JSON
has none. -/

set_option autoImplicit false

namespace Kaleidoscope.Node

def record (type : String) (fields : List (String × Document)) (start : Position) : Document :=
  .record (("node_type", .text type) :: fields ++
    [("line", .integer start.line), ("column", .integer start.column)])

def numberDocument (v : Double) : Document := if v.isFinite then .double v else .text v.written

mutual

def content : Node → Document
  | .missing | .bare .. | .textual .. => .null
  | .number v start => record "Number" [("value", numberDocument v)] start
  | .var name start => record "Variable" [("name", .text name)] start
  | .binary operator left right start =>
    record "BinaryOp"
      [("operator", .text operator), ("left", left.content), ("right", right.content)] start
  | .call callee args start =>
    record "Call" [("callee", .text callee), ("args", .list (contents args))] start
  | .prototype name params start =>
    record "Prototype" [("name", .text name), ("params", .list (params.map .text))] start
  | .function proto body start =>
    record "Function" [("proto", proto.content), ("body", body.content)] start

def contents : List Node → List Document
  | [] => []
  | a :: as => a.content :: contents as

end

mutual

def documentDefect? : Node → Option Defect
  | n@(.bare ..) => some (.undocumented n.className)
  | .textual .. => some .notReal
  | .binary _ left right _ => left.documentDefect? <|> right.documentDefect?
  | .call _ args _ => documentDefectAmong? args
  | .function proto body _ => proto.documentDefect? <|> body.documentDefect?
  | _ => none

def documentDefectAmong? : List Node → Option Defect
  | [] => none
  | a :: as => a.documentDefect? <|> documentDefectAmong? as

end

def document (n : Node) : Except Defect Document := unlessDefective n.documentDefect? n.content

end Kaleidoscope.Node
