import Kaleidoscope.Double.Basic

/-! The double nearest to a quotient of natural numbers. A quotient halfway between two doubles
goes to the one of even rank, and one too large for any finite double goes to infinity. -/

set_option autoImplicit false

namespace Kaleidoscope.Double

def roundHalfEven (n d : Nat) : Nat :=
  if 2 * (n % d) < d ∨ (2 * (n % d) = d ∧ n / d % 2 = 0) then n / d else n / d + 1

theorem roundHalfEven_exact (q : Nat) {d : Nat} (h : 0 < d) : roundHalfEven (q * d) d = q := by
  simp [roundHalfEven, Nat.mul_mod_left, Nat.mul_div_cancel q h, h]

/-- Above the smallest doubles, `step` bits are dropped so that fifty-three remain. -/
def nearestRank (n d : Nat) : Nat :=
  let step := (n * one / d).log2 - 52
  min infinityRank (roundHalfEven (n * one) (d * Nat.pow 2 step) + step * Nat.pow 2 52)

theorem nearestRank_le (n d : Nat) : nearestRank n d ≤ infinityRank := Nat.min_le_left ..

def nearest (n d : Nat) : Double :=
  .signed false ⟨nearestRank n d, Nat.lt_succ_of_le (nearestRank_le n d)⟩

end Kaleidoscope.Double
