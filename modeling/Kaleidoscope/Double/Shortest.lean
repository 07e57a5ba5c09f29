import Kaleidoscope.Double.Nearest

/-! The shortest decimal that reads back as a given double. Grids of one digit, two digits and so
on are tried in turn; on each, only the two neighbours of the double can read back. -/

set_option autoImplicit false

namespace Kaleidoscope

/-- The number `coefficient * 10 ^ exponent`. -/
structure Decimal where
  coefficient : Nat
  exponent : Int
  deriving DecidableEq, Repr

namespace Decimal

def rank (x : Decimal) : Nat :=
  Double.nearestRank (x.coefficient * Nat.pow 10 x.exponent.toNat)
    (Nat.pow 10 (-x.exponent).toNat)

def ofUnits (units : Nat) : Decimal := ⟨units * Nat.pow 5 1074, -1074⟩

/-- `units` as a number of steps of `10 ^ exponent`: the whole steps and, in `d`-ths of a step,
what is left over. -/
structure Steps where
  whole : Nat
  rest : Nat
  d : Nat

def steps (units : Nat) (exponent : Int) : Steps :=
  let n := units * Nat.pow 10 (-exponent).toNat
  let d := Double.one * Nat.pow 10 exponent.toNat
  ⟨n / d, n % d, d⟩

/-- The neighbour of `units` on the grid of `10 ^ exponent` that reads back as `rank`. Of two, the
nearer is taken, and of two equally near the even one. -/
def onGrid? (rank units : Nat) (exponent : Int) : Option Decimal :=
  let s := steps units exponent
  let below : Decimal := ⟨s.whole, exponent⟩
  let above : Decimal := ⟨s.whole + 1, exponent⟩
  if below.rank = rank then
    if above.rank = rank ∧ (s.d < 2 * s.rest ∨ (s.d = 2 * s.rest ∧ s.whole % 2 = 1)) then some above
    else some below
  else if above.rank = rank then some above
  else none

theorem rank_of_onGrid? {rank units : Nat} {exponent : Int} {x : Decimal}
    (h : onGrid? rank units exponent = some x) : x.rank = rank := by
  simp only [onGrid?] at h
  split at h
  · split at h <;> cases h <;> simp_all
  · split at h <;> cases h; assumption

def countDigits (n : Nat) : Nat := (Nat.toDigits 10 n).length

/-- Exponent of the leading digit of `units`, found by counting digits four hundred places on. -/
def leading (units : Nat) : Int := (countDigits (steps units (-400)).whole : Int) - 401

/-- Seventeen digits always suffice; the exact value stands behind them. -/
def shortest (rank : Nat) : Decimal :=
  let units := Double.units rank
  let found := (List.range 17).findSome? fun (p : Nat) => onGrid? rank units (leading units - p)
  found.getD (ofUnits units)

end Decimal

end Kaleidoscope
