/-! Doubles, in exact arithmetic. Ranks count the magnitudes upwards from zero, so neighbouring
ranks are neighbouring doubles and infinity has the last rank. Every finite magnitude is a whole
number of units of `2 ^ -1074`. -/

set_option autoImplicit false

namespace Kaleidoscope

def infinityRank : Nat := 0x7ff0000000000000

inductive Double where
  | nan
  | signed (negative : Bool) (rank : Fin (infinityRank + 1))
  deriving DecidableEq, Repr

namespace Double

def units (rank : Nat) : Nat :=
  if rank < Nat.pow 2 52 then rank
  else (Nat.pow 2 52 + rank % Nat.pow 2 52) * Nat.pow 2 (rank / Nat.pow 2 52 - 1)

def one : Nat := Nat.pow 2 1074

def ofRank (negative : Bool) (rank : Nat) : Double :=
  if h : rank ≤ infinityRank then .signed negative ⟨rank, Nat.lt_succ_of_le h⟩ else .nan

/-- The double with the given sixty-four bits: the sign, then the rank. -/
def ofBits (bits : Nat) : Double :=
  ofRank (bits / Nat.pow 2 63 % 2 == 1) (bits % Nat.pow 2 63)

def zero : Double := ofRank false 0

instance : Inhabited Double := ⟨zero⟩

def isFinite : Double → Bool
  | .nan => false
  | .signed _ rank => rank.val != infinityRank

/-- Numerical equality: the two zeros are equal, and nan equals nothing. -/
def same : Double → Double → Bool
  | .signed n r, .signed m s => r == s && (n == m || r.val == 0)
  | _, _ => false

theorem same_self {negative : Bool} {rank : Fin (infinityRank + 1)} :
    same (.signed negative rank) (.signed negative rank) = true := by simp [same]

end Double

end Kaleidoscope
