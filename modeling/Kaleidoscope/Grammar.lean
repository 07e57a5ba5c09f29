import Kaleidoscope.Chain
import Kaleidoscope.Diagnostic
import Kaleidoscope.Feed
import Kaleidoscope.Precedence

/-! The grammar. A rule works on the current token and pulls later ones as it needs them; it stops
at the first token that does not fit and leaves it current, or where the source fails. Loops are
given as many turns as there are tokens left, and each turn passes one. -/

set_option autoImplicit false

namespace Kaleidoscope

/-- The binary operators, and how deeply expressions may nest. -/
structure Grammar where
  precedence : Precedence := .standard
  maxDepth : Int := 200
  deriving DecidableEq, Repr

structure Parser where
  feed : Feed
  depth : Nat := 0
  deriving Repr

inductive Stop where
  | diagnostic (d : Diagnostic)
  | fault (f : Fault)
  deriving DecidableEq, Repr

abbrev Rule := EStateM Stop Parser

namespace Parser

def unstarted (scanner : Scanner) : Parser := { feed := Feed.ofScanner scanner }

def advance : EStateM Fault Parser Unit := fun p =>
  match p.feed.advance with
  | .ok () feed => .ok () { p with feed }
  | .error f feed => .error f { p with feed }

def start (scanner : Scanner) : EStateM.Result Fault Parser Unit := advance (unstarted scanner)

end Parser

namespace Rule

def current : Rule Token := fun p => .ok p.feed.current p

def advance : Rule Unit := fun p =>
  match p.advance with
  | .ok () p => .ok () p
  | .error f p => .error (.fault f) p

def fail {α : Type} (complaint : Complaint) : Rule α := fun p =>
  .error (.diagnostic (.atToken p.feed.current complaint)) p

def take : Rule Token := do
  let t ← current
  advance
  return t

def expect (char : String) (complaint : Complaint) : Rule Unit := do
  if (← current).isChar char then advance else fail complaint

/-- Enough turns for a loop that passes a token on each. -/
def turns : Rule Nat := fun p => .ok (p.feed.size + 1) p

/-- Runs a rule one level deeper. The depth is restored however the rule ends. -/
def nested {α : Type} (rule : Rule α) : Rule α := fun p =>
  match rule { p with depth := p.depth + 1 } with
  | .ok a p => .ok a { p with depth := p.depth - 1 }
  | .error e p => .error e { p with depth := p.depth - 1 }

def number : Rule Node := do
  let t ← current
  match t.payload with
  | .none => fail (.malformedNumber t.text)
  | .number v =>
    advance
    return .number v t.start
  | .text s =>
    advance
    return .textual s t.start

def parenthesized (expression : Rule Node) : Rule Node := do
  advance
  let e ← expression
  expect ")" .unclosedParenthesis
  return e

def argumentsWithin (expression : Rule Node) : Nat → Rule (List Node)
  | 0 => return []
  | n + 1 => do
    let arg ← expression
    let t ← current
    if t.isChar ")" then return [arg]
    else if t.isChar "," then
      advance
      return arg :: (← argumentsWithin expression n)
    else fail .unclosedArguments

def arguments (expression : Rule Node) : Rule (List Node) := do
  if (← current).isChar ")" then return []
  argumentsWithin expression (← turns)

def identifier (expression : Rule Node) : Rule Node := do
  let name ← take
  if (← current).isChar "(" then
    advance
    let args ← arguments expression
    advance
    return .call name.text args name.start
  else return .var name.text name.start

def primary (expression : Rule Node) : Rule Node := do
  let t ← current
  match t.kind with
  | .identifier => identifier expression
  | .number => number
  | _ => if t.isChar "(" then parenthesized expression else fail .noExpression

def parametersWithin : Nat → Rule (List String)
  | 0 => return []
  | n + 1 => do
    advance
    let t ← current
    if t.kind = .identifier then return t.text :: (← parametersWithin n)
    return []

def prototype : Rule Node := do
  let name ← current
  if name.kind ≠ .identifier then fail .noFunctionName
  advance
  if !(← current).isChar "(" then fail .noParameterList
  let params ← parametersWithin (← turns)
  expect ")" .unclosedParameters
  return .prototype name.text params name.start

end Rule

namespace Grammar

open Rule

/-- The level of a token as a binary operator, or -1. -/
def level (g : Grammar) (t : Token) : Int :=
  match t.kind, t.payload with
  | .character, .text s =>
    match s.toList with
    | [c] => g.precedence.level c
    | _ => -1
  | _, _ => -1

/-- The operators of level `least` or more that follow, each with its right operand. -/
def linksWithin (g : Grammar) (operand : Rule Node) (least : Int) : Nat → Rule (List Link)
  | 0 => return []
  | n + 1 => do
    let operator ← current
    let level := g.level operator
    if level < least then return []
    advance
    let right ← operand
    return ⟨operator, level, right⟩ :: (← linksWithin g operand least n)

def operators (g : Grammar) (operand : Rule Node) (least : Int) (left : Node) : Rule Node := do
  return Chain.tree left (← linksWithin g operand least (← turns))

/-- An expression with room for `n` levels, its own among them. -/
def expressionWithin (g : Grammar) : Nat → Rule Node
  | 0, p => fail .tooDeep p
  | n + 1, p =>
    nested (do
      let left ← primary (expressionWithin g n)
      operators g (primary (expressionWithin g n)) 0 left) p

/-- Number of levels that may still be opened at a depth. -/
def room (g : Grammar) (depth : Nat) : Nat := (g.maxDepth - depth).toNat

def expression (g : Grammar) : Rule Node := fun p => expressionWithin g (g.room p.depth) p

def definition (g : Grammar) : Rule Node := do
  let t ← current
  if t.kind ≠ .define then fail .noDefinition
  advance
  let proto ← prototype
  let body ← g.expression
  return .function proto body t.start

def external : Rule Node := do
  if (← current).kind ≠ .external then fail .noExternal
  advance
  prototype

/-- An expression that stands by itself is the body of an anonymous function. -/
def standalone (g : Grammar) : Rule Node := do
  let t ← current
  let body ← g.expression
  return .function (.prototype Node.anonymousName [] t.start) body t.start

end Grammar

/-- Runs a rule for a caller that wants a node or a diagnostic. A source that is exhausted counts
as too deep a nesting; other faults are passed on. All faults come from the source: the stack is
taken to be without bound, for rules and for the views of trees alike. -/
def Rule.attempt (rule : Rule Node) : EStateM Fault Parser (Except Diagnostic Node) := fun p =>
  match rule p with
  | .ok node p => .ok (.ok node) p
  | .error (.diagnostic d) p => .ok (.error d) p
  | .error (.fault .exhausted) p => .ok (.error (.atToken p.feed.current .tooDeep)) p
  | .error (.fault f) p => .error f p

end Kaleidoscope
