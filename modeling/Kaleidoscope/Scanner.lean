import Kaleidoscope.Lexeme
import Kaleidoscope.Source

/-! The scanner reads one character ahead of the lexeme it is on. Every scan is a number of single
advances, so a fault of the source strikes in the middle of one: the position has moved by then,
while the current character is still the one before. -/

set_option autoImplicit false

namespace Kaleidoscope

structure Scanner where
  current : Option Char
  position : Position
  source : Source
  deriving Repr

abbrev Scan := EStateM Fault Scanner

namespace Scanner

/-- The characters not yet passed: the current one, then those still in the source. -/
def ahead (s : Scanner) : List Char := s.current.toList ++ s.source.rest

def look : Scan (List Char) := fun s => .ok s.ahead s

def advance : Scan Unit := fun s =>
  let position := s.position.after s.current
  match s.source.read with
  | .ok c source => .ok () ⟨c, position, source⟩
  | .error f source => .error f ⟨s.current, position, source⟩

def advanceBy : Nat → Scan Unit
  | 0 => pure ()
  | n + 1 => do
    advance
    advanceBy n

def unstarted (source : Source) : Scanner := ⟨none, ⟨1, 0⟩, source⟩

def start (source : Source) : EStateM.Result Fault Scanner Unit := advance (unstarted source)

def skipBlanks : Scan Unit := do
  advanceBy ((← look).takeWhile Text.isBlank).length

def skipComment : Scan Unit := do
  advanceBy (comment (← look)).length

def numeral : Scan String := do
  let cs := (← look).takeWhile isNumeralChar
  advanceBy cs.length
  return String.ofList cs

/-- The current character, whatever it is, and the letters and digits after it. -/
def word? : Scan (Option String) := do
  match ← look with
  | [] =>
    advance
    return none
  | c :: cs =>
    let word := c :: cs.takeWhile Char.isAlphanum
    advanceBy word.length
    return some (String.ofList word)

def missingWord : String := "sequence item 0: expected str instance, NoneType found"

def next : Scan Token := do
  advanceBy (triviaLength false (← look))
  let start := (← get).position
  let cs := lexeme (← look)
  advanceBy cs.length
  return Token.ofLexeme start cs

/-- Each token but the last passes a character, so one more scan than characters is enough. -/
def scans (s : Scanner) : Nat := s.ahead.length + 1

def tokensWithin : Nat → Scan (List Token)
  | 0 => return []
  | n + 1 => do
    let t ← next
    if t.kind = .endOfInput then return [t]
    return t :: (← tokensWithin n)

def tokens : Scan (List Token) := do
  tokensWithin (← get).scans

end Scanner

def lex (text : String) : List Token :=
  let scan : Scan (List Token) := do
    Scanner.advance
    Scanner.tokens
  (scan.run' (Scanner.unstarted (Source.ofText text))).getD []

end Kaleidoscope
