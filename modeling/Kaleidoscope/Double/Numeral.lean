import Kaleidoscope.Double.Nearest

/-! Numerals: decimal digits with at most one point, which may stand at either end. -/

set_option autoImplicit false

namespace Kaleidoscope

def isNumeralChar (c : Char) : Bool := c.isDigit || c == '.'

def digitsValue (cs : List Char) : Nat := cs.foldl (fun n c => 10 * n + (c.toNat - 48)) 0

/-- A run of digits and points is no numeral when it has no digit or a second point. -/
def readNumeral? (cs : List Char) : Option Double :=
  let whole := cs.takeWhile (· != '.')
  let fraction := cs.drop (whole.length + 1)
  if fraction.contains '.' || (whole ++ fraction).isEmpty then none
  else some (Double.nearest (digitsValue (whole ++ fraction)) (Nat.pow 10 fraction.length))

end Kaleidoscope
