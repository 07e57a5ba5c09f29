import Kaleidoscope.Double.Written
import Kaleidoscope.Text.Hex

/-! Documents, and their text as JSON: indented by two spaces, and with ASCII characters only. -/

set_option autoImplicit false

namespace Kaleidoscope

inductive Document where
  | null
  | text (s : String)
  | integer (n : Int)
  | double (v : Double)
  | list (xs : List Document)
  | record (fields : List (String × Document))
  deriving Repr, Inhabited

namespace Document

def unicodeEscape (n : Nat) : List Char := '\\' :: 'u' :: Text.hexDigits 4 n

/-- A character beyond the basic plane is written as two surrogates. -/
def jsonChar (c : Char) : List Char :=
  if c = '"' ∨ c = '\\' then ['\\', c]
  else if c = '\n' then ['\\', 'n']
  else if c = '\r' then ['\\', 'r']
  else if c = '\t' then ['\\', 't']
  else if c.toNat = 8 then ['\\', 'b']
  else if c.toNat = 12 then ['\\', 'f']
  else if 0x20 ≤ c.toNat ∧ c.toNat < 0x7f then [c]
  else if c.toNat < 0x10000 then unicodeEscape c.toNat
  else
    let n := c.toNat - 0x10000
    unicodeEscape (0xd800 + n / 0x400) ++ unicodeEscape (0xdc00 + n % 0x400)

def jsonText (s : String) : String := String.ofList ('"' :: s.toList.flatMap jsonChar ++ ['"'])

def newLine (depth : Nat) : String := String.ofList ('\n' :: List.replicate (2 * depth) ' ')

/-- A piece of the text of a document. Of the numbers, only the finite ones have a numeral. -/
inductive Piece where
  | text (s : String)
  | number (v : Double)
  deriving DecidableEq, Repr

def Piece.written : Piece → String
  | .text s => s
  | .number v => v.written

/-- The number that there is no numeral for. -/
def Piece.refused? : Piece → Option Double
  | .text _ => none
  | .number v => if v.isFinite then none else some v

def enclose (opening closing : String) (depth : Nat) (items : List (List Piece)) : List Piece :=
  if items.isEmpty then [.text (opening ++ closing)]
  else
    .text (opening ++ newLine (depth + 1)) ::
      ([Piece.text ("," ++ newLine (depth + 1))].intercalate items ++
        [.text (newLine depth ++ closing)])

mutual

def pieces (depth : Nat) : Document → List Piece
  | .null => [.text "null"]
  | .text s => [.text (jsonText s)]
  | .integer n => [.text (toString n)]
  | .double v => [.number v]
  | .list xs => enclose "[" "]" depth (itemPieces (depth + 1) xs)
  | .record fields => enclose "\x7b" "\x7d" depth (fieldPieces (depth + 1) fields)

def itemPieces (depth : Nat) : List Document → List (List Piece)
  | [] => []
  | x :: xs => pieces depth x :: itemPieces depth xs

def fieldPieces (depth : Nat) : List (String × Document) → List (List Piece)
  | [] => []
  | (key, x) :: fields =>
    (.text (jsonText key ++ ": ") :: pieces depth x) :: fieldPieces depth fields

end

def json (d : Document) : String := String.join ((d.pieces 0).map Piece.written)

/-- What comes of writing a document: the text, or the number that stops the writing and the text
up to there. -/
structure Writing where
  text : String
  refused : Option Double
  deriving DecidableEq, Repr

def write (d : Document) : Writing :=
  let written := (d.pieces 0).takeWhile (·.refused?.isNone)
  ⟨String.join (written.map Piece.written), (d.pieces 0).findSome? Piece.refused?⟩

end Document

end Kaleidoscope
