import Kaleidoscope.Double.Written
import Kaleidoscope.Text.Quoted

/-! Tokens: what kind they are, what they carry and where they start. -/

set_option autoImplicit false

namespace Kaleidoscope

structure Position where
  line : Int := 0
  column : Int := 0
  deriving DecidableEq, Repr, Inhabited

/-- Where the next character stands, after a character or at the end of the input. -/
def Position.after (p : Position) (c : Option Char) : Position :=
  if c = some '\n' then ⟨p.line + 1, 1⟩ else ⟨p.line, p.column + 1⟩

inductive TokenKind where
  | endOfInput | define | external | identifier | number | character
  deriving DecidableEq, Repr, Inhabited

def TokenKind.all : List TokenKind :=
  [.endOfInput, .define, .external, .identifier, .number, .character]

def TokenKind.name : TokenKind → String
  | .endOfInput => "EOF"
  | .define => "DEF"
  | .external => "EXTERN"
  | .identifier => "IDENTIFIER"
  | .number => "NUMBER"
  | .character => "CHAR"

inductive Payload where
  | none
  | text (s : String)
  | number (v : Double)
  deriving DecidableEq, Repr, Inhabited

def Payload.shown : Payload → String
  | .none => "None"
  | .text s => Text.quoted s
  | .number v => v.written

structure Token where
  kind : TokenKind
  payload : Payload := .none
  start : Position := {}
  text : String := ""
  deriving DecidableEq, Repr, Inhabited

namespace Token

def endOfInput (start : Position) : Token := { kind := .endOfInput, start }

/-- The text of the token, or else the best there is to show for it. -/
def lexeme (t : Token) : String :=
  if t.text != "" then t.text
  else
    match t.payload with
    | .none => t.kind.name
    | .text s => s
    | .number v => v.written

def shown (t : Token) : String := s!"Token({t.kind.name}, {t.payload.shown})"

def isChar (t : Token) (s : String) : Bool := t.kind == .character && t.payload == .text s

end Token

end Kaleidoscope
