/-! Sets of characters given by closed ranges of code points. -/

set_option autoImplicit false

namespace Kaleidoscope.Text

abbrev Ranges := List (Nat × Nat)

def Ranges.covers (ranges : Ranges) (n : Nat) : Bool :=
  ranges.any fun r => r.1 ≤ n && n ≤ r.2

theorem Ranges.covers_iff (ranges : Ranges) (n : Nat) :
    ranges.covers n = true ↔ ∃ r ∈ ranges, r.1 ≤ n ∧ n ≤ r.2 := by
  simp [covers]

end Kaleidoscope.Text
