import Kaleidoscope.Text.Hex

/-! Strict decoding of UTF-8. Overlong forms, surrogates and code points past the last one are
refused, and a refusal names the bytes that cannot be read. -/

set_option autoImplicit false

namespace Kaleidoscope.Text

inductive Utf8Fault where
  | invalidStart
  | invalidContinuation
  | unexpectedEnd
  deriving DecidableEq, Repr

def Utf8Fault.reason : Utf8Fault → String
  | .invalidStart => "invalid start byte"
  | .invalidContinuation => "invalid continuation byte"
  | .unexpectedEnd => "unexpected end of data"

/-- `first` is the first of the `count` bytes that cannot be read; it stands at `offset`. -/
structure Utf8Error where
  fault : Utf8Fault
  offset : Nat
  count : Nat
  first : UInt8
  deriving DecidableEq, Repr

def Utf8Error.message (e : Utf8Error) : String :=
  let place :=
    if e.count = 1 then
      s!"byte 0x{String.ofList (hexDigits 2 e.first.toNat)} in position {e.offset}"
    else s!"bytes in position {e.offset}-{e.offset + e.count - 1}"
  s!"'utf-8' codec can't decode {place}: {e.fault.reason}"

def isContinuation (b : UInt8) : Bool := 0x80 ≤ b && b ≤ 0xbf

def continuations? (b : UInt8) : Option Nat :=
  if b < 0x80 then some 0
  else if 0xc2 ≤ b && b ≤ 0xdf then some 1
  else if 0xe0 ≤ b && b ≤ 0xef then some 2
  else if 0xf0 ≤ b && b ≤ 0xf4 then some 3
  else none

/-- The second byte is restricted further after some lead bytes. -/
def acceptsSecond (lead b : UInt8) : Bool :=
  isContinuation b &&
    (if lead = 0xe0 then 0xa0 ≤ b
     else if lead = 0xed then b < 0xa0
     else if lead = 0xf0 then 0x90 ≤ b
     else if lead = 0xf4 then b < 0x90
     else true)

/-- Number of bytes, out of the `n` wanted, that can continue `lead`. -/
def continued (lead : UInt8) (n : Nat) (rest : List UInt8) : Nat :=
  match rest.take n with
  | [] => 0
  | b :: bs => if acceptsSecond lead b then 1 + (bs.takeWhile isContinuation).length else 0

def leadPayload (lead : UInt8) (n : Nat) : Nat :=
  if n = 0 then lead.toNat else lead.toNat % Nat.pow 2 (6 - n)

def codePoint (lead : UInt8) (tail : List UInt8) : Nat :=
  tail.foldl (fun c b => 64 * c + b.toNat % 64) (leadPayload lead tail.length)

/-- The character at the front and the number of continuation bytes it takes, or the fault and
the number of bytes at fault. -/
def decodeFirst (lead : UInt8) (rest : List UInt8) : Except (Utf8Fault × Nat) (Char × Nat) :=
  match continuations? lead with
  | none => .error (.invalidStart, 1)
  | some n =>
    let found := continued lead n rest
    if found = n then .ok (Char.ofNat (codePoint lead (rest.take n)), n)
    else if rest.length = found then .error (.unexpectedEnd, 1 + found)
    else .error (.invalidContinuation, 1 + found)

/-- Passes over the first `skip` bytes, which belong to a character that was read already. -/
def decodeFrom (offset : Nat) : Nat → List UInt8 → Except Utf8Error (List Char)
  | _, [] => .ok []
  | skip + 1, _ :: rest => decodeFrom (offset + 1) skip rest
  | 0, lead :: rest =>
    match decodeFirst lead rest with
    | .error (fault, count) => .error ⟨fault, offset, count, lead⟩
    | .ok (c, n) => (decodeFrom (offset + 1) n rest).map (c :: ·)

def decodeUtf8 (bytes : List UInt8) : Except Utf8Error String :=
  (decodeFrom 0 0 bytes).map String.ofList

end Kaleidoscope.Text
