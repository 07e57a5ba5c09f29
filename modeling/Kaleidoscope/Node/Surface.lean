import Kaleidoscope.Node.Defect

/-! The surface form of a tree: one line of program text in which every binary expression stands
in parentheses. A missing tree has an empty text, and an anonymous function that of its body. -/

set_option autoImplicit false

namespace Kaleidoscope.Node

def signature (name : String) (params : List String) : String :=
  name ++ "(" ++ " ".intercalate params ++ ")"

mutual

def surfaceText : Node → String
  | .missing | .bare .. | .textual .. => ""
  | .number v _ => v.numeral
  | .var name _ => name
  | .binary operator left right _ => s!"({left.surfaceText} {operator} {right.surfaceText})"
  | .call callee args _ => callee ++ "(" ++ ", ".intercalate (surfaceTexts args) ++ ")"
  | .prototype name params _ => signature name params
  | .function proto body _ =>
    if proto.isAnonymous then body.surfaceText
    else s!"def {proto.surfaceText} {body.surfaceText}"

def surfaceTexts : List Node → List String
  | [] => []
  | a :: as => a.surfaceText :: surfaceTexts as

end

def isPrototype : Node → Bool
  | .prototype .. => true
  | _ => false

mutual

def surfaceDefect? : Node → Option Defect
  | n@(.bare ..) => some (.unprintable n.className)
  | .textual .. => some .noInteger
  | .binary _ left right _ => left.surfaceDefect? <|> right.surfaceDefect?
  | .call _ args _ => surfaceDefectAmong? args
  | .function proto body _ =>
    if proto.isPrototype then body.surfaceDefect? else some (.neverAnonymous proto.className)
  | _ => none

def surfaceDefectAmong? : List Node → Option Defect
  | [] => none
  | a :: as => a.surfaceDefect? <|> surfaceDefectAmong? as

end

def surface (n : Node) : Except Defect String := unlessDefective n.surfaceDefect? n.surfaceText

end Kaleidoscope.Node
