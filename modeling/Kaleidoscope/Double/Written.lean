import Kaleidoscope.Double.Shortest

/-! Written forms of a double. The shortest form is positional while the leading digit's exponent
is in -4..15 and has a point in any case; outside that range the exponent is written with a sign
and two digits at least. Trees write an integral number in full and without a point. -/

set_option autoImplicit false

namespace Kaleidoscope

namespace Decimal

def zeros (n : Int) : List Char := List.replicate n.toNat '0'

def dropTrailingZeros (digits : List Char) : List Char :=
  (digits.reverse.dropWhile (· == '0')).reverse

/-- Digits with the point after the one of exponent zero; `lead` is the first one's exponent. -/
def positional (digits : List Char) (lead : Int) : List Char :=
  if lead < 0 then '0' :: '.' :: zeros (-lead - 1) ++ digits
  else
    let whole := digits.take (lead.toNat + 1)
    let fraction := digits.drop (lead.toNat + 1)
    whole ++ zeros (lead + 1 - digits.length) ++
      '.' :: (if fraction.isEmpty then ['0'] else fraction)

def signedExponent (e : Int) : List Char :=
  let digits := Nat.toDigits 10 e.natAbs
  (if e < 0 then '-' else '+') :: zeros (2 - digits.length) ++ digits

def scientific (digits : List Char) (lead : Int) : List Char :=
  match digits with
  | [] => []
  | d :: ds => d :: (if ds.isEmpty then [] else '.' :: ds) ++ 'e' :: signedExponent lead

def written (x : Decimal) : List Char :=
  if x.coefficient = 0 then ['0', '.', '0']
  else
    let all := Nat.toDigits 10 x.coefficient
    let lead := x.exponent + all.length - 1
    let digits := dropTrailingZeros all
    if -4 ≤ lead ∧ lead < 16 then positional digits lead else scientific digits lead

end Decimal

namespace Double

def withSign (negative : Bool) (text : List Char) : List Char :=
  if negative then '-' :: text else text

def writtenRank (rank : Nat) : List Char :=
  if rank = infinityRank then ['i', 'n', 'f']
  else if rank = 0 then ['0', '.', '0']
  else (Decimal.shortest rank).written

def written : Double → String
  | .nan => "nan"
  | .signed negative rank => String.ofList (withSign negative (writtenRank rank))

/-- The integer that a rank stands for, if it stands for one. -/
def whole? (rank : Nat) : Option Nat :=
  if rank = infinityRank then none
  else if units rank % one = 0 then some (units rank / one) else none

/-- Zero has no sign here. -/
def numeral : Double → String
  | .nan => "nan"
  | .signed negative rank =>
    match whole? rank with
    | some n => String.ofList (withSign (negative && n != 0) (Nat.toDigits 10 n))
    | none => (Double.signed negative rank).written

end Double

end Kaleidoscope
