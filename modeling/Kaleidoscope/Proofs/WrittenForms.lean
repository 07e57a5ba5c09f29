import Kaleidoscope.Proofs.Numerals

/-! Different numbers have different written forms. A whole number has no point and no exponent, a
positional form reads back, and of a scientific form the digits and the exponent can be told. -/

set_option autoImplicit false

namespace Kaleidoscope

theorem append_cons_inj {α : Type} {c : α} {xs xs' ys ys' : List α} (h : c ∉ xs) (h' : c ∉ xs')
    (he : xs ++ c :: ys = xs' ++ c :: ys') : xs = xs' ∧ ys = ys' := by
  induction xs generalizing xs' with
  | nil =>
    cases xs' with
    | nil => exact ⟨rfl, (List.cons.inj he).2⟩
    | cons a xs' =>
      rw [(List.cons.inj he).1] at h'
      exact absurd List.mem_cons_self h'
  | cons a xs ih =>
    cases xs' with
    | nil =>
      rw [← (List.cons.inj he).1] at h
      exact absurd List.mem_cons_self h
    | cons a' xs' =>
      obtain ⟨rfl, htail⟩ := List.cons.inj he
      obtain ⟨rfl, rfl⟩ := ih (fun hm => h (List.mem_cons_of_mem _ hm))
        (fun hm => h' (List.mem_cons_of_mem _ hm)) htail
      exact ⟨rfl, rfl⟩

namespace Decimal

def mantissa (digits : List Char) : List Char :=
  match digits with
  | [] => []
  | d :: ds => d :: if ds.isEmpty then [] else '.' :: ds

theorem scientific_eq {digits : List Char} (hne : digits ≠ []) (lead : Int) :
    scientific digits lead = mantissa digits ++ 'e' :: signedExponent lead := by
  obtain ⟨d, ds, rfl⟩ := List.exists_cons_of_ne_nil hne
  rfl

theorem mantissa_inj {digits digits' : List Char} (h : mantissa digits = mantissa digits') :
    digits = digits' := by
  have hds : ∀ ds : List Char, (if ds.isEmpty then [] else '.' :: ds).drop 1 = ds := by
    intro ds
    cases ds <;> rfl
  cases digits with
  | nil =>
    cases digits' with
    | nil => rfl
    | cons => cases h
  | cons d ds =>
    cases digits' with
    | nil => cases h
    | cons d' ds' =>
      simp only [mantissa, List.cons.injEq] at h
      rw [h.1, ← hds ds, h.2, hds]

theorem isNumeralChar_mantissa {digits : List Char} (hd : ∀ c ∈ digits, c.isDigit = true) :
    ∀ c ∈ mantissa digits, isNumeralChar c = true := by
  have hdigits : ∀ c ∈ digits, isNumeralChar c = true :=
    fun c hc => isNumeralChar_of_isDigit (hd c hc)
  cases digits with
  | nil => simp [mantissa]
  | cons d ds =>
    obtain ⟨hfirst, hrest⟩ := List.forall_mem_cons.1 hdigits
    refine List.forall_mem_cons.2 ⟨hfirst, ?_⟩
    split
    · simp
    · exact List.forall_mem_cons.2 ⟨by decide, hrest⟩

theorem signedExponent_inj {e e' : Int} (h : signedExponent e = signedExponent e') : e = e' := by
  simp only [signedExponent, List.cons_append, List.cons.injEq] at h
  obtain ⟨hsign, hdigits⟩ := h
  have hvalue := congrArg digitsValue hdigits
  simp only [zeros, digitsValue_zeros_append, digitsValue_toDigits] at hvalue
  split at hsign <;> split at hsign
  · omega
  · exact absurd hsign (by decide)
  · exact absurd hsign (by decide)
  · omega

variable {x y : Decimal}

theorem written_scientific_or (hc : x.coefficient ≠ 0) (h : x.lead < 16) :
    (-4 ≤ x.lead ∧ x.written =
      positional (dropTrailingZeros (Nat.toDigits 10 x.coefficient)) x.lead) ∨
    (x.lead < -4 ∧ x.written = mantissa (dropTrailingZeros (Nat.toDigits 10 x.coefficient)) ++
      'e' :: signedExponent x.lead) := by
  by_cases hl : -4 ≤ x.lead
  · exact .inl ⟨hl, written_positional hc ⟨hl, h⟩⟩
  · have hlt := Int.not_le.1 hl
    exact .inr ⟨hlt, by
      rw [written_scientific hc hlt, scientific_eq (dropTrailingZeros_ne_nil hc)]⟩

theorem point_mem_positional (digits : List Char) (lead : Int) : '.' ∈ positional digits lead := by
  unfold positional
  split <;> simp

theorem point_or_exponent_mem_written (hc : x.coefficient ≠ 0) (h : x.lead < 16) :
    '.' ∈ x.written ∨ 'e' ∈ x.written := by
  obtain ⟨-, hx⟩ | ⟨-, hx⟩ := written_scientific_or hc h
  · exact .inl (hx ▸ point_mem_positional _ _)
  · exact .inr (by rw [hx]; simp)

theorem exponent_notMem_mantissa (n : Nat) :
    'e' ∉ mantissa (dropTrailingZeros (Nat.toDigits 10 n)) := fun hmem =>
  absurd (isNumeralChar_mantissa (isDigit_dropTrailingZeros n) _ hmem) (by decide)

theorem exponent_notMem_positional (n : Nat) (lead : Int) :
    'e' ∉ positional (dropTrailingZeros (Nat.toDigits 10 n)) lead := fun hmem =>
  absurd (isNumeralChar_positional (isDigit_dropTrailingZeros n) lead _ hmem) (by decide)

theorem rank_eq_of_written_eq (hx : x.coefficient ≠ 0) (hx' : x.lead < 16)
    (hy : y.coefficient ≠ 0) (hy' : y.lead < 16) (h : x.written = y.written) :
    x.rank = y.rank := by
  obtain ⟨hl, hwx⟩ | ⟨hl, hwx⟩ := written_scientific_or hx hx' <;>
    obtain ⟨hm, hwy⟩ | ⟨hm, hwy⟩ := written_scientific_or hy hy'
  · have hread := readNumeral?_written hx ⟨hl, hx'⟩
    rw [h, readNumeral?_written hy ⟨hm, hy'⟩] at hread
    have hdouble := Option.some.inj hread
    simp only [toDouble, Double.signed.injEq, Fin.mk.injEq, true_and] at hdouble
    exact hdouble.symm
  · have hmem : 'e' ∈ y.written := by rw [hwy]; simp
    rw [← h, hwx] at hmem
    exact absurd hmem (exponent_notMem_positional _ _)
  · have hmem : 'e' ∈ x.written := by rw [hwx]; simp
    rw [h, hwy] at hmem
    exact absurd hmem (exponent_notMem_positional _ _)
  · rw [hwx, hwy] at h
    obtain ⟨hmantissa, hexponent⟩ :=
      append_cons_inj (exponent_notMem_mantissa _) (exponent_notMem_mantissa _) h
    rw [← x.rank_digits, ← y.rank_digits, mantissa_inj hmantissa, signedExponent_inj hexponent]

end Decimal

namespace Double

variable {rank rank' : Fin (infinityRank + 1)}

theorem mark_mem_numeral (hw : whole? rank = none) (hr : rank.val < infinityRank) :
    '.' ∈ (signed false rank).numeral.toList ∨ 'e' ∈ (signed false rank).numeral.toList := by
  rw [numeral_of_fraction hw hr, String.toList_ofList]
  exact Decimal.point_or_exponent_mem_written (shortest_coefficient_ne hw hr)
    (lead_shortest_lt hw hr)

theorem exists_whole?_of_numeral_eq {n : Nat} (hw : whole? rank = some n)
    (h : (signed false rank).numeral = (signed false rank').numeral) :
    ∃ n', whole? rank' = some n' := by
  have hdigit : ∀ c ∈ (signed false rank').numeral.toList, c.isDigit = true := by
    rw [← h, numeral_of_whole? hw, String.toList_ofList]
    exact fun c hc => Nat.isDigit_of_mem_toDigits (by decide) (by decide) hc
  cases hw' : whole? rank' with
  | some n' => exact ⟨n', rfl⟩
  | none =>
    obtain hr | hr := Nat.lt_or_eq_of_le (Nat.le_of_lt_succ rank'.isLt)
    · obtain hmark | hmark := mark_mem_numeral hw' hr
      · exact absurd (hdigit _ hmark) (by decide)
      · exact absurd (hdigit _ hmark) (by decide)
    · rw [numeral_of_infinity hr] at hdigit
      exact absurd (hdigit 'i' (by decide)) (by decide)

theorem lt_of_numeral_eq (hw : whole? rank = none) (hr : rank.val < infinityRank)
    (h : (signed false rank).numeral = (signed false rank').numeral) :
    rank'.val < infinityRank := by
  refine Nat.lt_of_le_of_ne (Nat.le_of_lt_succ rank'.isLt) fun hinf => ?_
  have hmark := mark_mem_numeral hw hr
  rw [h, numeral_of_infinity hinf] at hmark
  exact absurd hmark (by decide)

/-- Numbers without a sign that are written alike are the same. -/
theorem rank_eq_of_numeral_eq (h : (signed false rank).numeral = (signed false rank').numeral) :
    rank = rank' := by
  have hle := Nat.le_of_lt_succ rank.isLt
  have hle' := Nat.le_of_lt_succ rank'.isLt
  refine Fin.val_inj.1 ?_
  cases hw : whole? rank with
  | some n =>
    obtain ⟨n', hw'⟩ := exists_whole?_of_numeral_eq hw h
    rw [numeral_of_whole? hw, numeral_of_whole? hw'] at h
    have hvalue := congrArg digitsValue (String.ofList_injective h)
    rw [digitsValue_toDigits, digitsValue_toDigits] at hvalue
    rw [← nearestRank_of_whole? hle hw, ← nearestRank_of_whole? hle' hw', hvalue]
  | none =>
    have hw' : whole? rank' = none := by
      cases hw' : whole? rank' with
      | none => rfl
      | some n' =>
        obtain ⟨n, hn⟩ := exists_whole?_of_numeral_eq hw' h.symm
        cases hw.symm.trans hn
    obtain hr | hr := Nat.lt_or_eq_of_le hle
    · have hr' := lt_of_numeral_eq hw hr h
      rw [numeral_of_fraction hw hr, numeral_of_fraction hw' hr'] at h
      have hrank := Decimal.rank_eq_of_written_eq (shortest_coefficient_ne hw hr)
        (lead_shortest_lt hw hr) (shortest_coefficient_ne hw' hr') (lead_shortest_lt hw' hr')
        (String.ofList_injective h)
      rwa [Decimal.rank_shortest hle, Decimal.rank_shortest hle'] at hrank
    · obtain hr' | hr' := Nat.lt_or_eq_of_le hle'
      · exact absurd hr (Nat.ne_of_lt (lt_of_numeral_eq hw' hr' h.symm))
      · rw [hr, hr']

theorem numeral_eq_of_same {v v' : Double} (h : v.same v' = true) : v.numeral = v'.numeral := by
  cases v with
  | nan => cases h
  | signed negative rank =>
    cases v' with
    | nan => cases h
    | signed negative' rank' =>
      simp only [same, Bool.and_eq_true, Bool.or_eq_true, beq_iff_eq] at h
      obtain ⟨rfl, rfl | hzero⟩ := h
      · rfl
      · have hw : whole? rank = some 0 := by
          rw [hzero]
          decide +kernel
        simp [numeral, hw]

end Double

end Kaleidoscope
