import Kaleidoscope.Text.Blank
import Kaleidoscope.Text.Digit
import Kaleidoscope.Text.Quoted

/-! Reading an integer literal: white space on either side, an optional sign, then decimal
digits of any script, with single underscores allowed between them. -/

set_option autoImplicit false

namespace Kaleidoscope.Text

inductive IntegerError where
  | malformed (literal : String)
  | tooLong (digits : Nat)
  deriving DecidableEq, Repr

/-- A longer literal is refused, whatever its value. -/
def maxIntegerDigits : Nat := 4300

def IntegerError.message : IntegerError → String
  | .malformed literal =>
    "invalid literal for int() with base 10: " ++ ((quoted literal).take 200).toString
  | .tooLong digits =>
    s!"Exceeds the limit ({maxIntegerDigits} digits) for integer string conversion: value has " ++
      s!"{digits} digits; use sys.set_int_max_str_digits() to increase the limit"

/-- Around a literal the ASCII information separators do not count as white space. -/
def isPadding (c : Char) : Bool := isBlank c && !(0x1c ≤ c.toNat && c.toNat ≤ 0x1f)

def splitSign : List Char → Bool × List Char
  | '+' :: cs => (false, cs)
  | '-' :: cs => (true, cs)
  | cs => (false, cs)

/-- Every underscore stands between two digits; `afterDigit` says what precedes the rest. -/
def wellSeparated (afterDigit : Bool) : List Char → Bool
  | [] => afterDigit
  | c :: cs => if c = '_' then afterDigit && wellSeparated false cs else wellSeparated true cs

def decimalValue (digits : List Nat) : Nat := digits.foldl (fun n d => 10 * n + d) 0

def readInteger (literal : String) : Except IntegerError Int :=
  let (negative, body) := splitSign (literal.toList.dropWhile isPadding)
  let run := body.takeWhile fun c => isDecimal c || c = '_'
  let digits := run.filterMap digitValue?
  if !wellSeparated false run then .error (.malformed literal)
  else if maxIntegerDigits < digits.length then .error (.tooLong digits.length)
  else if !(body.drop run.length).all isPadding then .error (.malformed literal)
  else .ok (if negative then -(decimalValue digits : Int) else decimalValue digits)

end Kaleidoscope.Text
