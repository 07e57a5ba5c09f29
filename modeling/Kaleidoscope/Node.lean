import Kaleidoscope.Token

/-! Trees of the language. A function holds a prototype and a body; an expression at top level is
the body of an anonymous function. The type also has room for trees that no text parses to: any
node may stand under any other, a child may be missing, a node may be bare (of a kind, but without
contents), and a number may be textual (with text where its value should be). -/

set_option autoImplicit false

namespace Kaleidoscope

inductive NodeKind where
  | number | reference | binary | call | prototype | function
  deriving DecidableEq, Repr, Inhabited

def NodeKind.all : List NodeKind :=
  [.number, .reference, .binary, .call, .prototype, .function]

def NodeKind.name : NodeKind → String
  | .number => "NUMBER"
  | .reference => "VARIABLE"
  | .binary => "BINARY_OP"
  | .call => "CALL"
  | .prototype => "PROTOTYPE"
  | .function => "FUNCTION"

inductive Node where
  | missing
  | bare (kind : NodeKind) (start : Position)
  | textual (text : String) (start : Position)
  | number (value : Double) (start : Position)
  | var (name : String) (start : Position)
  | binary (operator : String) (left right : Node) (start : Position)
  | call (callee : String) (args : List Node) (start : Position)
  | prototype (name : String) (params : List String) (start : Position)
  | function (proto body : Node) (start : Position)
  deriving Repr, Inhabited

namespace Node

/-- The name that the function around a top-level expression goes by. -/
def anonymousName : String := "__anon_expr"

def isAnonymous : Node → Bool
  | .prototype name _ _ => name == anonymousName
  | _ => false

def className : Node → String
  | .missing => "NoneType"
  | .bare .. => "ASTNode"
  | .textual .. | .number .. => "NumberExprNode"
  | .var .. => "VariableExprNode"
  | .binary .. => "BinaryExprNode"
  | .call .. => "CallExprNode"
  | .prototype .. => "PrototypeNode"
  | .function .. => "FunctionNode"

/-- The name that a function shows when this node stands in the place of its prototype. -/
def name? : Node → Option String
  | .var name _ => some name
  | .prototype name _ _ => some name
  | _ => none

def shownName (n : Node) : String := n.name?.getD ""

mutual

/-- Equality up to positions, with numbers compared as numbers. -/
def same : Node → Node → Bool
  | .missing, .missing => true
  | .bare k _, .bare k' _ => k == k'
  | .textual t _, .textual t' _ => t == t'
  | .number v _, .number v' _ => v.same v'
  | .var n _, .var n' _ => n == n'
  | .binary o l r _, .binary o' l' r' _ => o == o' && l.same l' && r.same r'
  | .call c as _, .call c' as' _ => c == c' && sameAll as as'
  | .prototype n ps _, .prototype n' ps' _ => n == n' && ps == ps'
  | .function p b _, .function p' b' _ => p.same p' && b.same b'
  | _, _ => false

def sameAll : List Node → List Node → Bool
  | [], [] => true
  | a :: as, b :: bs => a.same b && sameAll as bs
  | _, _ => false

end

end Node

end Kaleidoscope
