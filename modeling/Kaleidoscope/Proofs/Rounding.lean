import Kaleidoscope.Double.Shortest

/-! Rounding to the nearest double. It keeps the order of quotients, and it is exact on what a
double stands for; so what it makes of a decimal is settled by the value of the decimal, and the
decimal that a double is written as reads back. -/

set_option autoImplicit false

namespace Kaleidoscope

namespace Double

theorem div_le_div_of_mul_le {n d n' d' : Nat} (hd : 0 < d) (hd' : 0 < d') (h : n * d' ≤ n' * d) :
    n / d ≤ n' / d' := by
  refine (Nat.le_div_iff_mul_le hd').2 (Nat.le_of_mul_le_mul_right ?_ hd)
  calc n / d * d' * d = n / d * d * d' := Nat.mul_right_comm ..
    _ ≤ n * d' := Nat.mul_le_mul_right d' (Nat.div_mul_le_self n d)
    _ ≤ n' * d := h

theorem roundHalfEven_bounds (n d : Nat) :
    n / d ≤ roundHalfEven n d ∧ roundHalfEven n d ≤ n / d + 1 := by
  unfold roundHalfEven
  split <;> omega

theorem roundHalfEven_mono {n d n' d' : Nat} (hd : 0 < d) (hd' : 0 < d') (h : n * d' ≤ n' * d) :
    roundHalfEven n d ≤ roundHalfEven n' d' := by
  obtain hlt | heq := Nat.lt_or_eq_of_le (div_le_div_of_mul_le hd hd' h)
  · have := (roundHalfEven_bounds n d).2
    have := (roundHalfEven_bounds n' d').1
    omega
  have hrest : n % d * d' ≤ n' % d' * d := by
    have hn : n * d' = n / d * (d * d') + n % d * d' := by
      rw [← Nat.mul_assoc, ← Nat.add_mul, Nat.div_add_mod']
    have hn' : n' * d = n / d * (d * d') + n' % d' * d := by
      rw [heq, Nat.mul_comm d d', ← Nat.mul_assoc, ← Nat.add_mul, Nat.div_add_mod']
    omega
  have hhalf : d ≤ 2 * (n % d) → d' ≤ 2 * (n' % d') := by
    intro hle
    refine Nat.le_of_mul_le_mul_left ?_ hd
    calc d * d' ≤ 2 * (n % d) * d' := Nat.mul_le_mul_right d' hle
      _ = 2 * (n % d * d') := Nat.mul_assoc ..
      _ ≤ 2 * (n' % d' * d) := Nat.mul_le_mul_left 2 hrest
      _ = d * (2 * (n' % d')) := by rw [← Nat.mul_assoc, Nat.mul_comm]
  have htie : 2 * (n' % d') = d' → 2 * (n % d) ≤ d := by
    intro he
    refine Nat.le_of_mul_le_mul_right ?_ hd'
    calc 2 * (n % d) * d' = 2 * (n % d * d') := Nat.mul_assoc ..
      _ ≤ 2 * (n' % d' * d) := Nat.mul_le_mul_left 2 hrest
      _ = d * d' := by rw [← Nat.mul_assoc, he, Nat.mul_comm]
  unfold roundHalfEven
  rw [heq]
  split <;> split <;> omega

theorem roundHalfEven_le {n d q : Nat} (hd : 0 < d) (h : n ≤ q * d) : roundHalfEven n d ≤ q :=
  calc roundHalfEven n d ≤ roundHalfEven (q * d) d :=
        roundHalfEven_mono hd hd (Nat.mul_le_mul_right d h)
    _ = q := roundHalfEven_exact q hd

theorem le_roundHalfEven {n d q : Nat} (hd : 0 < d) (h : q * d ≤ n) : q ≤ roundHalfEven n d :=
  calc q = roundHalfEven (q * d) d := (roundHalfEven_exact q hd).symm
    _ ≤ roundHalfEven n d := roundHalfEven_mono hd hd (Nat.mul_le_mul_right d h)

theorem exists_binade (rank : Nat) :
    ∃ m e, rank = m + e * Nat.pow 2 52 ∧ units rank = m * Nat.pow 2 e ∧ m < Nat.pow 2 53 ∧
      (e = 0 ∨ Nat.pow 2 52 ≤ m) := by
  unfold units
  split
  · next h =>
    refine ⟨rank, 0, by simp, by simp, Nat.lt_of_lt_of_le h (by decide), .inl rfl⟩
  · next h =>
    have hpos : 0 < Nat.pow 2 52 := by decide
    have hone : 1 ≤ rank / Nat.pow 2 52 :=
      (Nat.le_div_iff_mul_le hpos).2 (by omega)
    obtain ⟨e, he⟩ := Nat.exists_eq_add_of_le' hone
    have hsum := Nat.div_add_mod' rank (Nat.pow 2 52)
    have hlt := Nat.mod_lt rank hpos
    have hdouble : Nat.pow 2 53 = Nat.pow 2 52 + Nat.pow 2 52 := by decide
    refine ⟨_, e, ?_, by rw [he, Nat.add_sub_cancel], by omega, .inr (Nat.le_add_right _ _)⟩
    rw [he, Nat.add_mul] at hsum
    omega

theorem log2_sub_eq_iff {u step : Nat} :
    u.log2 - 52 = step ↔
      u < Nat.pow 2 (step + 53) ∧ (step = 0 ∨ Nat.pow 2 (step + 52) ≤ u) := by
  simp only [Nat.pow_eq]
  obtain rfl | hu := Nat.eq_zero_or_pos u
  · have hpos : ∀ k, 0 < 2 ^ k := fun k => Nat.two_pow_pos k
    have := hpos (step + 52)
    have := hpos (step + 53)
    simp only [Nat.log2_zero]
    omega
  · have hne : u ≠ 0 := by omega
    rw [← Nat.log2_lt hne, ← Nat.le_log2 hne]
    omega

theorem nearestRank_eq {n d step : Nat} (h : (n * one / d).log2 - 52 = step) :
    nearestRank n d = min infinityRank
      (roundHalfEven (n * one) (d * Nat.pow 2 step) + step * Nat.pow 2 52) := by
  subst h
  rfl

/-- What a rank stands for is rounded to that rank. -/
theorem nearestRank_of_units {n d rank : Nat} (hd : 0 < d) (hr : rank ≤ infinityRank)
    (h : n * one = units rank * d) : nearestRank n d = rank := by
  obtain ⟨m, e, hrank, hunits, hm, he⟩ := exists_binade rank
  have hpos : 0 < Nat.pow 2 e := Nat.two_pow_pos e
  have hstep : (units rank).log2 - 52 = e := by
    rw [hunits, log2_sub_eq_iff, Nat.add_comm e, Nat.add_comm e]
    simp only [Nat.pow_eq, Nat.pow_add] at hm he hpos ⊢
    refine ⟨Nat.mul_lt_mul_of_pos_right hm hpos, he.imp_right fun he => ?_⟩
    exact Nat.mul_le_mul_right _ he
  have hround : roundHalfEven (units rank * d) (d * Nat.pow 2 e) = m := by
    have hfactor : units rank * d = m * (d * Nat.pow 2 e) := by
      rw [hunits, Nat.mul_assoc, Nat.mul_comm d]
    rw [hfactor, roundHalfEven_exact m (Nat.mul_pos hd hpos)]
  have hquotient : (n * one / d).log2 - 52 = e := by rw [h, Nat.mul_div_cancel _ hd, hstep]
  rw [nearestRank_eq hquotient, h, hround, ← hrank, Nat.min_eq_right hr]

theorem nearestRank_zero {d : Nat} (hd : 0 < d) : nearestRank 0 d = 0 :=
  nearestRank_of_units hd (Nat.zero_le _) (by simp [units])

theorem nearestRank_mono {n d n' d' : Nat} (hd : 0 < d) (hd' : 0 < d') (h : n * d' ≤ n' * d) :
    nearestRank n d ≤ nearestRank n' d' := by
  have hone : n * one * d' ≤ n' * one * d := by
    rw [Nat.mul_right_comm, Nat.mul_right_comm n']
    exact Nat.mul_le_mul_right one h
  have hdiv := div_le_div_of_mul_le hd hd' hone
  obtain ⟨s, hs⟩ : ∃ s, (n * one / d).log2 - 52 = s := ⟨_, rfl⟩
  obtain ⟨s', hs'⟩ : ∃ s, (n' * one / d').log2 - 52 = s := ⟨_, rfl⟩
  have hpos : ∀ {k}, 0 < Nat.pow 2 k := fun {k} => Nat.two_pow_pos k
  have hle : s ≤ s' := by
    refine Nat.le_of_not_lt fun hlt => ?_
    have hlow := (log2_sub_eq_iff.1 hs).2.resolve_left (Nat.ne_of_gt (Nat.zero_lt_of_lt hlt))
    have hhigh := (log2_sub_eq_iff.1 hs').1
    have hpow : Nat.pow 2 (s' + 53) ≤ Nat.pow 2 (s + 52) :=
      Nat.pow_le_pow_right (by decide) (by omega)
    omega
  rw [nearestRank_eq hs, nearestRank_eq hs']
  refine Nat.le_min.2 ⟨Nat.min_le_left _ _, Nat.le_trans (Nat.min_le_right _ _) ?_⟩
  obtain rfl | hlt := Nat.eq_or_lt_of_le hle
  · refine Nat.add_le_add_right
      (roundHalfEven_mono (Nat.mul_pos hd hpos) (Nat.mul_pos hd' hpos) ?_) _
    rw [← Nat.mul_assoc, ← Nat.mul_assoc]
    exact Nat.mul_le_mul_right _ hone
  · have hlow : n * one ≤ Nat.pow 2 53 * (d * Nat.pow 2 s) := by
      have hu := (Nat.div_lt_iff_lt_mul hd).1 (log2_sub_eq_iff.1 hs).1
      simp only [Nat.pow_eq, Nat.pow_add, Nat.mul_comm d] at hu ⊢
      rw [← Nat.mul_assoc, Nat.mul_comm (2 ^ 53)]
      exact Nat.le_of_lt hu
    have hhigh : Nat.pow 2 52 * (d' * Nat.pow 2 s') ≤ n' * one := by
      have hu : Nat.pow 2 (s' + 52) ≤ n' * one / d' :=
        (log2_sub_eq_iff.1 hs').2.resolve_left (Nat.ne_of_gt (Nat.zero_lt_of_lt hlt))
      have hu := (Nat.le_div_iff_mul_le hd').1 hu
      simp only [Nat.pow_eq, Nat.pow_add, Nat.mul_comm d'] at hu ⊢
      rwa [← Nat.mul_assoc, Nat.mul_comm (2 ^ 52)]
    have h53 := roundHalfEven_le (Nat.mul_pos hd hpos) hlow
    have h52 := le_roundHalfEven (Nat.mul_pos hd' hpos) hhigh
    have hdouble : Nat.pow 2 53 = Nat.pow 2 52 + Nat.pow 2 52 := by decide
    have hgap : (s + 1) * Nat.pow 2 52 ≤ s' * Nat.pow 2 52 := Nat.mul_le_mul_right _ hlt
    rw [Nat.add_mul] at hgap
    omega

end Double

namespace Decimal

variable {x y : Decimal}

theorem mul_pow_le {c c' a b a' b' : Nat} (h : a + b' = a' + b)
    (hle : c * Nat.pow 10 a ≤ c' * Nat.pow 10 b) : c * Nat.pow 10 a' ≤ c' * Nat.pow 10 b' := by
  refine Nat.le_of_mul_le_mul_right ?_ (Nat.pow_pos (n := b) (by decide : 0 < 10))
  calc c * Nat.pow 10 a' * Nat.pow 10 b = c * Nat.pow 10 (a' + b) := by
        simp only [Nat.pow_eq, Nat.pow_add, Nat.mul_assoc]
    _ = c * Nat.pow 10 a * Nat.pow 10 b' := by
        rw [← h]
        simp only [Nat.pow_eq, Nat.pow_add, Nat.mul_assoc]
    _ ≤ c' * Nat.pow 10 b * Nat.pow 10 b' := Nat.mul_le_mul_right _ hle
    _ = c' * Nat.pow 10 b' * Nat.pow 10 b := Nat.mul_right_comm ..

theorem rank_le_rank {a b : Nat} (h : (a : Int) - b = x.exponent - y.exponent)
    (hle : x.coefficient * Nat.pow 10 a ≤ y.coefficient * Nat.pow 10 b) : x.rank ≤ y.rank := by
  have hpos : ∀ k, 0 < Nat.pow 10 k := fun k => Nat.pow_pos (by decide)
  refine Double.nearestRank_mono (hpos _) (hpos _) ?_
  have hexp : a + (y.exponent.toNat + (-x.exponent).toNat) =
      x.exponent.toNat + (-y.exponent).toNat + b := by omega
  have hpow := mul_pow_le hexp hle
  simpa only [Nat.pow_eq, Nat.pow_add, Nat.mul_assoc] using hpow

theorem rank_shift (n k : Nat) (e : Int) :
    rank ⟨n * Nat.pow 10 k, e - k⟩ = rank ⟨n, e⟩ := by
  refine Nat.le_antisymm (rank_le_rank (a := 0) (b := k) ?_ ?_)
    (rank_le_rank (a := k) (b := 0) ?_ ?_)
  · simp only
    omega
  · simp
  · simp only
    omega
  · simp

def lead (x : Decimal) : Int := x.exponent + (Nat.toDigits 10 x.coefficient).length - 1

theorem lt_pow_length (n : Nat) : n < Nat.pow 10 (Nat.toDigits 10 n).length :=
  (Nat.length_toDigits_le_iff (by decide) Nat.length_toDigits_pos).1 (Nat.le_refl _)

theorem pow_length_le {n : Nat} (hn : 0 < n) : Nat.pow 10 ((Nat.toDigits 10 n).length - 1) ≤ n := by
  refine Nat.le_of_not_lt fun hlt => ?_
  obtain hlen | hlen := Nat.eq_zero_or_pos ((Nat.toDigits 10 n).length - 1)
  · rw [hlen] at hlt
    simp at hlt
    omega
  · have := (Nat.length_toDigits_le_iff (by decide) hlen).2 hlt
    omega

theorem rank_le_of_lead_lt {e : Int} (h : x.lead < e) : x.rank ≤ rank ⟨1, e⟩ := by
  refine rank_le_rank (a := (x.exponent - e).toNat) (b := (e - x.exponent).toNat) ?_ ?_
  · simp only
    omega
  · simp only [lead] at h
    calc x.coefficient * Nat.pow 10 (x.exponent - e).toNat
        ≤ Nat.pow 10 (Nat.toDigits 10 x.coefficient).length * Nat.pow 10 (x.exponent - e).toNat :=
          Nat.mul_le_mul_right _ (Nat.le_of_lt (lt_pow_length _))
      _ = Nat.pow 10 ((Nat.toDigits 10 x.coefficient).length + (x.exponent - e).toNat) :=
          (Nat.pow_add ..).symm
      _ ≤ Nat.pow 10 (e - x.exponent).toNat := Nat.pow_le_pow_right (by decide) (by omega)
      _ = 1 * Nat.pow 10 (e - x.exponent).toNat := (Nat.one_mul _).symm

theorem le_rank_of_le_lead {e : Int} (hc : 0 < x.coefficient) (h : e ≤ x.lead) :
    rank ⟨1, e⟩ ≤ x.rank := by
  refine rank_le_rank (a := (e - x.exponent).toNat) (b := (x.exponent - e).toNat) ?_ ?_
  · simp only
    omega
  · simp only [lead] at h
    calc 1 * Nat.pow 10 (e - x.exponent).toNat = Nat.pow 10 (e - x.exponent).toNat := Nat.one_mul _
      _ ≤ Nat.pow 10 ((Nat.toDigits 10 x.coefficient).length - 1 + (x.exponent - e).toNat) :=
          Nat.pow_le_pow_right (by decide) (by omega)
      _ = Nat.pow 10 ((Nat.toDigits 10 x.coefficient).length - 1) *
            Nat.pow 10 (x.exponent - e).toNat := Nat.pow_add ..
      _ ≤ x.coefficient * Nat.pow 10 (x.exponent - e).toNat :=
          Nat.mul_le_mul_right _ (pow_length_le hc)

theorem rank_ofUnits {rank : Nat} (h : rank ≤ infinityRank) :
    (ofUnits (Double.units rank)).rank = rank := by
  simp only [Decimal.rank, ofUnits]
  refine Double.nearestRank_of_units (by decide +kernel) h ?_
  rw [Nat.mul_assoc, Nat.mul_assoc]
  refine congrArg (Double.units rank * ·) ?_
  decide +kernel

/-- The decimal that a rank is written as reads back. -/
theorem rank_shortest {rank : Nat} (h : rank ≤ infinityRank) : (shortest rank).rank = rank := by
  simp only [shortest]
  generalize hf : List.findSome? _ _ = found
  cases found with
  | none => exact rank_ofUnits h
  | some x =>
    obtain ⟨p, -, hp⟩ := List.exists_of_findSome?_eq_some hf
    exact rank_of_onGrid? hp

end Decimal

end Kaleidoscope
