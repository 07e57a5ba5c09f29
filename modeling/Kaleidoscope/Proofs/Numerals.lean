import Kaleidoscope.Node.Surface
import Kaleidoscope.Proofs.Printing
import Kaleidoscope.Proofs.Rounding
import Kaleidoscope.Proofs.WellFormed

/-! Which numbers are printed as numerals. Positional forms, with or without a point, read back as
the number that they are printed for. The scientific form of a number below 0.0001 and the word for
infinity are no numerals. -/

set_option autoImplicit false

namespace Kaleidoscope

theorem digitsValue_eq (cs : List Char) : digitsValue cs = Nat.ofDigitChars 10 cs 0 := rfl

theorem digitsValue_toDigits (n : Nat) : digitsValue (Nat.toDigits 10 n) = n :=
  Nat.ofDigitChars_ten_toDigits

theorem digitsValue_zeros_append (k : Nat) (cs : List Char) :
    digitsValue (List.replicate k '0' ++ cs) = digitsValue cs := by
  rw [digitsValue_eq, digitsValue_eq, Nat.ofDigitChars_append, Nat.ofDigitChars_replicate_zero,
    Nat.mul_zero]

theorem digitsValue_append_zeros (cs : List Char) (k : Nat) :
    digitsValue (cs ++ List.replicate k '0') = digitsValue cs * Nat.pow 10 k := by
  rw [digitsValue_eq, digitsValue_eq, Nat.ofDigitChars_append, Nat.ofDigitChars_replicate_zero,
    Nat.mul_comm]
  rfl

theorem point_notMem_of_isDigit {cs : List Char} (h : ∀ c ∈ cs, c.isDigit = true) : '.' ∉ cs :=
  fun hp => by simpa using h '.' hp

theorem isNumeralChar_of_isDigit {c : Char} (h : c.isDigit = true) : isNumeralChar c = true := by
  simp [isNumeralChar, h]

namespace Decimal

def toDouble (x : Decimal) : Double :=
  .signed false ⟨x.rank, Nat.lt_succ_of_le (Double.nearestRank_le _ _)⟩

theorem toDouble_eq {x y : Decimal} (h : x.rank = y.rank) : x.toDouble = y.toDouble := by
  simp only [toDouble, h]

theorem toDouble_of_rank {x : Decimal} {rank : Fin (infinityRank + 1)} (h : x.rank = rank) :
    x.toDouble = .signed false rank := by
  simp only [toDouble, h]

theorem nearest_eq (n k : Nat) : Double.nearest n (Nat.pow 10 k) = toDouble ⟨n, -k⟩ := by
  have hnum : (-(k : Int)).toNat = 0 := by omega
  have hden : (-(-(k : Int))).toNat = k := by omega
  simp only [Double.nearest, toDouble, Decimal.rank, hnum, hden, Nat.pow_eq, Nat.pow_zero,
    Nat.mul_one]

theorem exists_dropTrailingZeros (digits : List Char) :
    ∃ k, digits = dropTrailingZeros digits ++ List.replicate k '0' := by
  have hsplit := List.takeWhile_append_dropWhile (p := (· == '0')) (l := digits.reverse)
  refine ⟨(digits.reverse.takeWhile (· == '0')).length, ?_⟩
  have hall : digits.reverse.takeWhile (· == '0') =
      List.replicate (digits.reverse.takeWhile (· == '0')).length '0' := by
    refine List.eq_replicate_of_mem fun c hc => ?_
    simpa using List.all_eq_true.1 List.all_takeWhile c hc
  rw [← List.reverse_inj, List.reverse_append, List.reverse_replicate, ← hall, dropTrailingZeros,
    List.reverse_reverse, hsplit]

theorem readNumeral?_split {whole fraction : List Char} (hw : '.' ∉ whole) (hf : '.' ∉ fraction)
    (hne : fraction ≠ []) :
    readNumeral? (whole ++ '.' :: fraction) =
      some (toDouble ⟨digitsValue (whole ++ fraction), -fraction.length⟩) := by
  have hgood : ¬ (fraction.contains '.' || (whole ++ fraction).isEmpty) = true := by
    rw [Bool.or_eq_true, List.contains_iff_mem, List.isEmpty_iff]
    simp [hf, hne]
  rw [readNumeral?_point hw, if_neg hgood, nearest_eq]

theorem point_notMem_zeros (n : Int) : '.' ∉ zeros n := fun h =>
  absurd (List.eq_of_mem_replicate h) (by decide)

theorem readNumeral?_positional {digits : List Char} (hd : ∀ c ∈ digits, c.isDigit = true)
    (hne : digits ≠ []) (lead : Int) :
    readNumeral? (positional digits lead) =
      some (toDouble ⟨digitsValue digits, lead + 1 - digits.length⟩) := by
  have hp := point_notMem_of_isDigit hd
  unfold positional
  split
  · next hl =>
    have hf : '.' ∉ zeros (-lead - 1) ++ digits := by simp [point_notMem_zeros, hp]
    have hvalue : digitsValue (['0'] ++ (zeros (-lead - 1) ++ digits)) = digitsValue digits :=
      (digitsValue_zeros_append 1 _).trans (digitsValue_zeros_append _ _)
    have hlen : -((zeros (-lead - 1) ++ digits).length : Int) = lead + 1 - digits.length := by
      simp only [zeros, List.length_append, List.length_replicate]
      omega
    have hzero : '.' ∉ ['0'] := by simp
    refine (readNumeral?_split hzero hf (by simp [hne])).trans ?_
    rw [hvalue, hlen]
  · next hl =>
    simp only
    split
    · next he =>
      have hlen := List.drop_eq_nil_iff.1 (List.isEmpty_iff.1 he)
      have hw : '.' ∉ digits ++ zeros (lead + 1 - digits.length) := by
        simp [point_notMem_zeros, hp]
      have hall : digits ++ zeros (lead + 1 - digits.length) ++ ['0'] =
          digits ++ List.replicate ((lead + 1 - digits.length).toNat + 1) '0' := by
        rw [zeros, List.append_assoc, List.replicate_succ']
      rw [List.take_of_length_le hlen, readNumeral?_split hw (by simp) (by simp), hall,
        digitsValue_append_zeros]
      have hexp : -(['0'].length : Int) = lead + 1 - digits.length -
          ((lead + 1 - digits.length).toNat + 1 : Nat) := by
        rw [List.length_singleton]
        omega
      rw [hexp]
      exact congrArg some (toDouble_eq (rank_shift _ _ _))
    · next he =>
      have hne' : digits.drop (lead.toNat + 1) ≠ [] := by simpa using he
      have hlen := List.drop_eq_nil_iff.not.1 hne'
      have hnone : zeros (lead + 1 - digits.length) = [] := by
        rw [zeros, List.replicate_eq_nil_iff]
        omega
      have hw : '.' ∉ digits.take (lead.toNat + 1) := fun h => hp (List.mem_of_mem_take h)
      have hf : '.' ∉ digits.drop (lead.toNat + 1) := fun h => hp (List.mem_of_mem_drop h)
      rw [hnone, List.append_nil, readNumeral?_split hw hf hne', List.take_append_drop]
      congr 2
      rw [Decimal.mk.injEq, List.length_drop]
      exact ⟨rfl, by omega⟩

theorem isNumeralChar_positional {digits : List Char} (hd : ∀ c ∈ digits, c.isDigit = true)
    (lead : Int) : ∀ c ∈ positional digits lead, isNumeralChar c = true := by
  have hzeros : ∀ n, ∀ c ∈ zeros n, isNumeralChar c = true := by
    intro n c hc
    rw [List.eq_of_mem_replicate hc]
    decide
  have hdigits : ∀ c ∈ digits, isNumeralChar c = true :=
    fun c hc => isNumeralChar_of_isDigit (hd c hc)
  unfold positional
  split
  · simp only [List.cons_append, List.forall_mem_cons, List.forall_mem_append]
    exact ⟨by decide, by decide, hzeros _, hdigits⟩
  · simp only [List.forall_mem_append, List.forall_mem_cons]
    refine ⟨⟨fun c hc => hdigits c (List.mem_of_mem_take hc), hzeros _⟩, by decide, ?_⟩
    split
    · intro c hc
      rw [List.mem_singleton.1 hc]
      decide
    · exact fun c hc => hdigits c (List.mem_of_mem_drop hc)

variable {x : Decimal}

theorem isDigit_dropTrailingZeros (n : Nat) :
    ∀ c ∈ dropTrailingZeros (Nat.toDigits 10 n), c.isDigit = true := by
  obtain ⟨k, hk⟩ := exists_dropTrailingZeros (Nat.toDigits 10 n)
  intro c hc
  refine Nat.isDigit_of_mem_toDigits (b := 10) (n := n) (by decide) (by decide) ?_
  rw [hk]
  exact List.mem_append_left _ hc

theorem dropTrailingZeros_ne_nil {n : Nat} (hn : n ≠ 0) :
    dropTrailingZeros (Nat.toDigits 10 n) ≠ [] := by
  obtain ⟨k, hk⟩ := exists_dropTrailingZeros (Nat.toDigits 10 n)
  intro hnil
  have hvalue := digitsValue_toDigits n
  rw [hk, hnil, digitsValue_append_zeros] at hvalue
  simp [digitsValue] at hvalue
  exact hn hvalue.symm

theorem written_positional (hc : x.coefficient ≠ 0) (h : -4 ≤ x.lead ∧ x.lead < 16) :
    x.written = positional (dropTrailingZeros (Nat.toDigits 10 x.coefficient)) x.lead := by
  simp only [written, if_neg hc]
  exact if_pos h

theorem written_scientific (hc : x.coefficient ≠ 0) (h : x.lead < -4) :
    x.written = scientific (dropTrailingZeros (Nat.toDigits 10 x.coefficient)) x.lead := by
  simp only [written, if_neg hc]
  exact if_neg fun hl => absurd hl.1 (Int.not_le.2 h)

theorem rank_digits (x : Decimal) :
    rank ⟨digitsValue (dropTrailingZeros (Nat.toDigits 10 x.coefficient)),
      x.lead + 1 - (dropTrailingZeros (Nat.toDigits 10 x.coefficient)).length⟩ = x.rank := by
  obtain ⟨k, hk⟩ := exists_dropTrailingZeros (Nat.toDigits 10 x.coefficient)
  have hlen := congrArg List.length hk
  rw [List.length_append, List.length_replicate] at hlen
  have hvalue := digitsValue_toDigits x.coefficient
  rw [hk, digitsValue_append_zeros] at hvalue
  generalize dropTrailingZeros (Nat.toDigits 10 x.coefficient) = digits at hlen hvalue
  have hexp : x.exponent = x.lead + 1 - digits.length - k := by
    simp only [lead]
    omega
  rw [← rank_shift _ k, hvalue, ← hexp]

theorem readNumeral?_written (hc : x.coefficient ≠ 0) (h : -4 ≤ x.lead ∧ x.lead < 16) :
    readNumeral? x.written = some x.toDouble := by
  rw [written_positional hc h,
    readNumeral?_positional (isDigit_dropTrailingZeros _) (dropTrailingZeros_ne_nil hc)]
  exact congrArg some (toDouble_eq x.rank_digits)

theorem exponent_mem_scientific {digits : List Char} (hne : digits ≠ []) (lead : Int) :
    'e' ∈ scientific digits lead := by
  obtain ⟨d, ds, rfl⟩ := List.exists_cons_of_ne_nil hne
  simp [scientific]

end Decimal

/-- The number is printed as one numeral, and that is read as the number. -/
def Double.ReadsBack (v : Double) : Prop :=
  ∃ t finish, lex v.numeral = [t, .endOfInput finish] ∧ t.kind = .number ∧ t.payload = .number v

theorem lex_of_readNumeral? {cs : List Char} (hcs : ∀ c ∈ cs, isNumeralChar c = true) {v : Double}
    (h : readNumeral? cs = some v) :
    lex (String.ofList cs) =
      [⟨.number, .number v, ⟨1, 1⟩, String.ofList cs⟩, .endOfInput (.behind cs)] := by
  cases cs with
  | nil => cases h
  | cons c cs =>
    obtain ⟨payload, hp⟩ := exists_isNumber (List.cons_ne_nil c cs)
    have hpayload := hp.readNumeral?_eq (List.cons_ne_nil c cs) hcs
    rw [h] at hpayload
    obtain rfl : payload = .number v := hpayload.symm
    obtain ⟨hc, hcs⟩ := List.forall_mem_cons.1 hcs
    have hreads : Reads [] (c :: cs) ⟨.number, .number v, ⟨1, 1⟩, String.ofList (c :: cs)⟩ :=
      .number hc hcs (by simp) hp
    have hend : Decomposes (c :: cs) [] [.endOfInput (.behind (c :: cs ++ []))] := .finished .none
    rw [List.append_nil] at hend
    have hall : Decomposes [] ([] ++ (c :: cs ++ [])) _ := .token .none hreads rfl hend
    rw [lex_eq_iff, String.toList_ofList]
    simpa using hall

theorem isNumeralChar_of_lex {text : String} (hi : ∀ c ∈ text.toList, isInk c = true) {t : Token}
    {finish : Position} (h : lex text = [t, .endOfInput finish]) (hk : t.kind = .number) :
    ∀ c ∈ text.toList, isNumeralChar c = true := by
  obtain ⟨hl, ht⟩ := lexeme_of_lex hi h
  have hkind : (Token.ofLexeme {} text.toList).kind = .number := by rw [← ht]; exact hk
  generalize text.toList = cs at hl hkind
  cases hl with
  | word hc _ =>
    simp only [Token.ofLexeme, hc, if_true] at hkind
    obtain ⟨kind, hw⟩ := exists_isWord (_ :: _)
    rw [hw.wordKind_eq] at hkind
    cases hw <;> cases hkind
  | numeral hc hcs => exact List.forall_mem_cons.2 ⟨hc, hcs⟩
  | symbol ha hn _ =>
    simp only [Token.ofLexeme, ha, hn, Bool.false_eq_true, if_false] at hkind
    cases hkind

namespace Double

theorem readsBack_of_readNumeral? {v : Double} {cs : List Char} (hv : v.numeral = String.ofList cs)
    (hcs : ∀ c ∈ cs, isNumeralChar c = true) (h : readNumeral? cs = some v) : v.ReadsBack :=
  ⟨_, _, hv ▸ lex_of_readNumeral? hcs h, rfl, rfl⟩

theorem ReadsBack.isNumeralChar {v : Double} (h : v.ReadsBack) :
    ∀ c ∈ v.numeral.toList, Kaleidoscope.isNumeralChar c = true := by
  obtain ⟨t, finish, hlex, hk, -⟩ := h
  exact isNumeralChar_of_lex v.inked_numeral hlex hk

theorem whole?_eq_some_iff {rank n : Nat} :
    whole? rank = some n ↔ rank ≠ infinityRank ∧ units rank = n * one := by
  have hone : 0 < one := by decide +kernel
  unfold whole?
  split
  · next h => simp [h]
  · next h =>
    split
    · next hmod =>
      rw [Option.some.injEq, Nat.div_eq_iff_eq_mul_left hone (Nat.dvd_of_mod_eq_zero hmod)]
      simp [h]
    · next hmod =>
      refine ⟨fun hn => absurd hn (by simp), fun hn => absurd ?_ hmod⟩
      rw [hn.2, Nat.mul_mod_left]

theorem ne_zero_of_whole? {rank : Nat} (h : whole? rank = none) : rank ≠ 0 := by
  rintro rfl
  exact absurd h (by decide +kernel)

theorem nearestRank_of_whole? {rank n : Nat} (hr : rank ≤ infinityRank)
    (h : whole? rank = some n) : nearestRank n 1 = rank :=
  nearestRank_of_units (by decide) hr (by rw [(whole?_eq_some_iff.1 h).2, Nat.mul_one])

theorem exists_whole? {rank : Nat} (h : Decimal.rank ⟨1, 16⟩ ≤ rank) (hr : rank ≠ infinityRank) :
    ∃ n, whole? rank = some n := by
  have hlow : 1076 * Nat.pow 2 52 ≤ Decimal.rank ⟨1, 16⟩ := by decide +kernel
  obtain ⟨k, hk, hone⟩ : ∃ k, k = 1074 ∧ one = Nat.pow 2 k := ⟨1074, rfl, by decide +kernel⟩
  obtain ⟨m, e, hrank, hunits, hm, -⟩ := exists_binade rank
  have hdouble : Nat.pow 2 53 = 2 * Nat.pow 2 52 := by decide
  -- so many doublings that the units make up whole ones
  have he : k ≤ e := by
    refine Nat.le_of_not_lt fun hlt => ?_
    have := Nat.mul_le_mul_right (Nat.pow 2 52) (show e + 2 ≤ 1076 by omega)
    rw [Nat.add_mul] at this
    omega
  refine ⟨m * Nat.pow 2 (e - k), whole?_eq_some_iff.2 ⟨hr, ?_⟩⟩
  rw [hunits, hone, Nat.mul_assoc]
  have hsum := Nat.pow_add 2 (e - k) k
  rw [Nat.sub_add_cancel he] at hsum
  exact congrArg _ hsum

/-- Zero, or finite and no less than 0.0001. -/
def Plain (rank : Nat) : Prop :=
  rank = 0 ∨ nearestRank 1 (Nat.pow 10 4) ≤ rank ∧ rank < infinityRank

instance (rank : Nat) : Decidable (Plain rank) := inferInstanceAs (Decidable (_ ∨ _ ∧ _))

section Ranks

variable {rank : Fin (infinityRank + 1)}

theorem numeral_of_whole? {n : Nat} (h : whole? rank = some n) :
    (signed false rank).numeral = String.ofList (Nat.toDigits 10 n) := by
  simp only [numeral, h, withSign, Bool.false_and, Bool.false_eq_true, if_false]

theorem readsBack_of_whole? {n : Nat} (h : whole? rank = some n) :
    (signed false rank).ReadsBack := by
  have hdigit : ∀ c ∈ Nat.toDigits 10 n, c.isDigit = true := fun c hc =>
    Nat.isDigit_of_mem_toDigits (by decide) (by decide) hc
  refine readsBack_of_readNumeral? (numeral_of_whole? h)
    (fun c hc => isNumeralChar_of_isDigit (hdigit c hc)) ?_
  have hne : ¬ (Nat.toDigits 10 n).isEmpty = true := by
    rw [List.isEmpty_iff]
    exact List.length_pos_iff.1 Nat.length_toDigits_pos
  rw [readNumeral?_whole (point_notMem_of_isDigit hdigit), if_neg hne, digitsValue_toDigits]
  simp only [nearest, nearestRank_of_whole? (Nat.le_of_lt_succ rank.isLt) h]

theorem plain_of_whole? {n : Nat} (h : whole? rank = some n) : Plain rank := by
  have hr := nearestRank_of_whole? (Nat.le_of_lt_succ rank.isLt) h
  obtain rfl | hn := Nat.eq_zero_or_pos n
  · exact .inl (hr.symm.trans (nearestRank_zero (by decide)))
  · refine .inr ⟨?_, Nat.lt_of_le_of_ne (Nat.le_of_lt_succ rank.isLt) (whole?_eq_some_iff.1 h).1⟩
    rw [← hr]
    refine nearestRank_mono (by decide) (by decide) ?_
    calc 1 * 1 ≤ n * 1 := Nat.mul_le_mul_right 1 hn
      _ ≤ n * Nat.pow 10 4 := Nat.mul_le_mul_left n (by decide)

section Fraction

variable (hw : whole? rank = none) (hr : rank.val < infinityRank)

include hw hr

theorem shortest_coefficient_ne : (Decimal.shortest rank).coefficient ≠ 0 := by
  intro hc
  have hzero : (Decimal.shortest rank).rank = 0 := by
    rw [Decimal.rank, hc, Nat.zero_mul]
    exact nearestRank_zero (Nat.pow_pos (by decide))
  rw [Decimal.rank_shortest (Nat.le_of_lt hr)] at hzero
  exact ne_zero_of_whole? hw hzero

theorem lead_shortest_lt : (Decimal.shortest rank).lead < 16 := by
  refine Int.not_le.1 fun hle => ?_
  have hle := Decimal.le_rank_of_le_lead
    (Nat.pos_of_ne_zero (shortest_coefficient_ne hw hr)) hle
  rw [Decimal.rank_shortest (Nat.le_of_lt hr)] at hle
  obtain ⟨n, hn⟩ := exists_whole? hle (Nat.ne_of_lt hr)
  rw [hw] at hn
  cases hn

theorem le_lead_shortest_iff :
    -4 ≤ (Decimal.shortest rank).lead ↔ nearestRank 1 (Nat.pow 10 4) ≤ rank := by
  have hrank := Decimal.rank_shortest (Nat.le_of_lt hr)
  have hleast : Decimal.rank ⟨1, -4⟩ = nearestRank 1 (Nat.pow 10 4) := by decide +kernel
  rw [← hleast]
  refine ⟨fun hle => ?_, fun hle => Int.not_lt.1 fun hlt => ?_⟩
  · rw [← hrank]
    exact Decimal.le_rank_of_le_lead (Nat.pos_of_ne_zero (shortest_coefficient_ne hw hr)) hle
  · have hge := Decimal.rank_le_of_lead_lt hlt
    rw [hrank] at hge
    have hlead : -4 ≤ (Decimal.shortest (Decimal.rank ⟨1, -4⟩)).lead := by decide +kernel
    rw [Nat.le_antisymm hle hge] at hlead
    omega

theorem numeral_of_fraction :
    (signed false rank).numeral = String.ofList (Decimal.shortest rank).written := by
  simp only [numeral, hw, written, withSign, writtenRank, Nat.ne_of_lt hr,
    ne_zero_of_whole? hw, Bool.false_eq_true, if_false]

theorem readsBack_fraction_iff :
    (signed false rank).ReadsBack ↔ nearestRank 1 (Nat.pow 10 4) ≤ rank := by
  have hc := shortest_coefficient_ne hw hr
  have hnumeral := numeral_of_fraction hw hr
  rw [← le_lead_shortest_iff hw hr]
  refine ⟨fun h => Int.not_lt.1 fun hlt => ?_, fun hle => ?_⟩
  · have he := Decimal.exponent_mem_scientific
      (Decimal.dropTrailingZeros_ne_nil hc) (Decimal.shortest rank).lead
    have hchar := h.isNumeralChar 'e'
    rw [hnumeral, String.toList_ofList, Decimal.written_scientific hc hlt] at hchar
    exact absurd (hchar he) (by decide)
  · have hlead := And.intro hle (lead_shortest_lt hw hr)
    refine readsBack_of_readNumeral? hnumeral ?_ ?_
    · rw [Decimal.written_positional hc hlead]
      exact Decimal.isNumeralChar_positional (Decimal.isDigit_dropTrailingZeros _) _
    · rw [Decimal.readNumeral?_written hc hlead,
        Decimal.toDouble_of_rank (Decimal.rank_shortest (Nat.le_of_lt hr))]

end Fraction

theorem numeral_of_infinity (h : rank.val = infinityRank) :
    (signed false rank).numeral = "inf" := by
  simp only [numeral, whole?, written, writtenRank, h, withSign, Bool.false_eq_true, if_true,
    if_false]

theorem not_readsBack_infinity (h : rank.val = infinityRank) : ¬ (signed false rank).ReadsBack := by
  intro hb
  have hchar := hb.isNumeralChar 'i'
  rw [numeral_of_infinity h] at hchar
  exact absurd (hchar (by decide)) (by decide)

/-- A number without a sign is printed as a numeral that reads back if it is plain, and not
otherwise. -/
theorem readsBack_iff : (signed false rank).ReadsBack ↔ Plain rank := by
  cases hw : whole? rank with
  | some n => exact iff_of_true (readsBack_of_whole? hw) (plain_of_whole? hw)
  | none =>
    obtain hr | hr := Nat.lt_or_eq_of_le (Nat.le_of_lt_succ rank.isLt)
    · rw [readsBack_fraction_iff hw hr]
      exact ⟨fun h => .inr ⟨h, hr⟩, fun h => (h.resolve_left (ne_zero_of_whole? hw)).1⟩
    · refine iff_of_false (not_readsBack_infinity hr) ?_
      rintro (h | ⟨-, h⟩)
      · rw [hr] at h
        exact absurd h (by decide)
      · omega

end Ranks

/-- A numeral of a text carries a number without a sign. Printed, that is one numeral that reads
back as the number if it is zero, or finite and no less than 0.0001, and not otherwise. -/
theorem readsBack_of_lex (text : String) (t : Token) (ht : t ∈ lex text) (hk : t.kind = .number)
    (v : Double) (hv : t.payload = .number v) :
    ∃ rank, v = .signed false rank ∧
      (∀ start, (Node.number v start).surface = .ok v.numeral) ∧
      (v.ReadsBack ↔ Plain rank) := by
  obtain ⟨l, rest, hreads⟩ := (decomposes_lex text).reads_of_mem t ht (by rw [hk]; decide)
  obtain hnone | ⟨rank, hrank⟩ := hreads.number_signed hk
  · rw [hnone] at hv
    cases hv
  · rw [hrank] at hv
    cases hv
    exact ⟨rank, rfl, fun start => rfl, readsBack_iff⟩

theorem readsBack_least :
    let v := nearest 1 (Nat.pow 10 4)
    let t : Token := ⟨.number, .number v, ⟨1, 5⟩, ".00010"⟩
    t ∈ lex "x + .00010" ∧ t.kind = .number ∧ t.payload = .number v ∧ v.numeral = "0.0001" ∧
      v.ReadsBack := by
  intro v t
  have ht : t ∈ lex "x + .00010" := by decide +kernel
  obtain ⟨rank, hrank, -, hback⟩ := readsBack_of_lex "x + .00010" t ht rfl v rfl
  simp only [v, nearest, signed.injEq, true_and] at hrank
  have hplain : Plain (nearestRank 1 (Nat.pow 10 4)) := by decide +kernel
  refine ⟨ht, rfl, rfl, by decide +kernel, hback.2 ?_⟩
  rw [← hrank]
  exact hplain

/-- A small number is printed with an exponent, which is read as four tokens. -/
theorem not_readsBack_small :
    let v := nearest 1 (Nat.pow 10 5)
    let t : Token := ⟨.number, .number v, ⟨1, 1⟩, "0.00001"⟩
    t ∈ lex "0.00001" ∧ t.kind = .number ∧ t.payload = .number v ∧ v.numeral = "1e-05" ∧
      (lex v.numeral).map Token.text = ["1", "e", "-", "05", ""] ∧ ¬ v.ReadsBack := by
  intro v t
  have htexts : (lex v.numeral).map Token.text = ["1", "e", "-", "05", ""] := by decide +kernel
  refine ⟨by decide +kernel, rfl, rfl, by decide +kernel, htexts, ?_⟩
  rintro ⟨t, finish, hlex, -⟩
  rw [hlex] at htexts
  simp at htexts

end Double

end Kaleidoscope
