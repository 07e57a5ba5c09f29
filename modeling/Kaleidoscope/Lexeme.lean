import Kaleidoscope.Double.Numeral
import Kaleidoscope.Text.Blank
import Kaleidoscope.Token

/-! How a text divides: a stretch of white space and comments, then the longest lexeme that starts
there. A comment runs from its sign to the end of the line. -/

set_option autoImplicit false

namespace Kaleidoscope

def endsComment (c : Char) : Bool := c == '\n' || c == '\r'

def comment (cs : List Char) : List Char := cs.takeWhile (!endsComment ·)

def triviaLength (inComment : Bool) : List Char → Nat
  | [] => 0
  | c :: cs =>
    if inComment && !endsComment c then triviaLength true cs + 1
    else if Text.isBlank c then triviaLength false cs + 1
    else if c = '#' then triviaLength true cs + 1
    else 0

theorem triviaLength_le (inComment : Bool) (cs : List Char) :
    triviaLength inComment cs ≤ cs.length := by
  induction cs generalizing inComment with
  | nil => exact Nat.le_refl 0
  | cons c cs ih =>
    have h₁ := ih true
    have h₂ := ih false
    simp only [triviaLength, List.length_cons]
    repeat' split
    all_goals omega

def lexeme : List Char → List Char
  | [] => []
  | c :: cs =>
    if c.isAlpha then c :: cs.takeWhile Char.isAlphanum
    else if isNumeralChar c then c :: cs.takeWhile isNumeralChar
    else [c]

theorem lexeme_eq_nil_iff (cs : List Char) : lexeme cs = [] ↔ cs = [] := by
  cases cs with
  | nil => simp [lexeme]
  | cons c cs =>
    simp only [lexeme]
    repeat' split
    all_goals simp

theorem lexeme_starts (cs : List Char) : lexeme cs <+: cs := by
  cases cs with
  | nil => exact List.prefix_rfl
  | cons c cs =>
    simp only [lexeme]
    repeat' split
    · exact List.cons_prefix_cons.2 ⟨rfl, List.takeWhile_prefix _⟩
    · exact List.cons_prefix_cons.2 ⟨rfl, List.takeWhile_prefix _⟩
    · exact List.cons_prefix_cons.2 ⟨rfl, List.nil_prefix⟩

def wordKind (word : String) : TokenKind :=
  if word = "def" then .define else if word = "extern" then .external else .identifier

/-- The token of a lexeme. A numeral that cannot be read carries nothing. -/
def Token.ofLexeme (start : Position) (cs : List Char) : Token :=
  let text := String.ofList cs
  match cs with
  | [] => .endOfInput start
  | c :: _ =>
    if c.isAlpha then ⟨wordKind text, .text text, start, text⟩
    else if isNumeralChar c then
      ⟨.number, (readNumeral? cs).elim .none .number, start, text⟩
    else ⟨.character, .text text, start, text⟩

end Kaleidoscope
