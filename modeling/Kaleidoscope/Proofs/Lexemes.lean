import Kaleidoscope.Proofs.Scanning

/-! Lexemes side by side. A lexeme stands by itself in front of any text that does not go on with
it, and spaces between lexemes leave no trace. -/

set_option autoImplicit false

namespace Kaleidoscope

section Characters

variable {c : Char}

theorem isBlank_eq_false (h : 33 ≤ c.toNat) (h' : c.toNat ≤ 126) : Text.isBlank c = false := by
  have hrange : ∀ r ∈ Text.blankRanges, r.2 < 33 ∨ 126 < r.1 := by decide
  refine Bool.eq_false_iff.2 fun hb => ?_
  obtain ⟨r, hr, hb⟩ := (Text.Ranges.covers_iff _ _).1 hb
  have := hrange r hr
  omega

theorem toNat_of_isDigit (h : c.isDigit = true) : 48 ≤ c.toNat ∧ c.toNat ≤ 57 := by
  have h : (decide (48 ≤ c.val) && decide (c.val ≤ 57)) = true := h
  simpa [UInt32.le_iff_toNat_le] using h

theorem toNat_of_isAlpha (h : c.isAlpha = true) : 65 ≤ c.toNat ∧ c.toNat ≤ 122 := by
  have h : (decide (65 ≤ c.val ∧ c.val ≤ 90) ||
      (decide (97 ≤ c.val) && decide (c.val ≤ 122))) = true := h
  have hv : c.toNat = c.val.toNat := rfl
  simp [UInt32.le_iff_toNat_le] at h
  omega

/-- The character is neither blank nor the sign of a comment. -/
def isInk (c : Char) : Bool := !Text.isBlank c && c != '#'

theorem isInk_iff : isInk c = true ↔ Text.isBlank c = false ∧ c ≠ '#' := by simp [isInk]

theorem isInk_of_toNat (h : 36 ≤ c.toNat) (h' : c.toNat ≤ 126) : isInk c = true := by
  refine isInk_iff.2 ⟨isBlank_eq_false (by omega) h', fun hc => ?_⟩
  subst hc
  simp at h

theorem isInk_of_isDigit (h : c.isDigit = true) : isInk c = true := by
  have := toNat_of_isDigit h
  exact isInk_of_toNat (by omega) (by omega)

theorem isInk_of_isAlpha (h : c.isAlpha = true) : isInk c = true := by
  have := toNat_of_isAlpha h
  exact isInk_of_toNat (by omega) (by omega)

theorem isInk_of_isNumeralChar (h : isNumeralChar c = true) : isInk c = true := by
  simp only [isNumeralChar, Bool.or_eq_true, beq_iff_eq] at h
  obtain h | rfl := h
  · exact isInk_of_isDigit h
  · decide

theorem isNumeralChar_of_isAlpha (h : c.isAlpha = true) : isNumeralChar c = false := by
  have ha := toNat_of_isAlpha h
  refine Bool.eq_false_iff.2 fun hn => ?_
  simp only [isNumeralChar, Bool.or_eq_true, beq_iff_eq] at hn
  obtain hn | rfl := hn
  · have := toNat_of_isDigit hn
    omega
  · simp at ha

theorem isAlpha_of_isNumeralChar (h : isNumeralChar c = true) : c.isAlpha = false := by
  cases ha : c.isAlpha with
  | false => rfl
  | true =>
    rw [isNumeralChar_of_isAlpha ha] at h
    cases h

end Characters

theorem trimmed_of_isInk {c : Char} (h : isInk c = true) (cs : List Char) :
    trimmed (c :: cs) = c :: cs := by
  obtain ⟨hb, hc⟩ := isInk_iff.1 h
  simp [trimmed, triviaLength, hb, hc]

theorem isInk_of_trimmed {c : Char} {cs : List Char} (h : trimmed (c :: cs) = c :: cs) :
    isInk c = true := by
  have hl := congrArg List.length h
  simp only [trimmed, List.length_drop, List.length_cons] at hl
  have h0 : triviaLength false (c :: cs) = 0 := by omega
  simp only [triviaLength, Bool.false_and, Bool.false_eq_true, if_false] at h0
  split at h0
  · omega
  · next hb =>
    split at h0
    · omega
    · next hc => exact isInk_iff.2 ⟨by simpa using hb, hc⟩

theorem trimmed_space (cs : List Char) : trimmed (' ' :: cs) = trimmed cs := by
  have hb : Text.isBlank ' ' = true := by decide
  simp [trimmed, triviaLength, hb]

theorem trimmed_of_forall_isInk {cs : List Char} (h : ∀ c ∈ cs, isInk c = true) :
    trimmed cs = cs := by
  cases cs with
  | nil => rfl
  | cons c cs => exact trimmed_of_isInk (h c (by simp)) cs

/-- The three sorts of lexemes. -/
inductive IsLexeme : List Char → Prop where
  | word {c : Char} {cs : List Char} : c.isAlpha = true → (∀ a ∈ cs, a.isAlphanum = true) →
      IsLexeme (c :: cs)
  | numeral {c : Char} {cs : List Char} : isNumeralChar c = true →
      (∀ a ∈ cs, isNumeralChar a = true) → IsLexeme (c :: cs)
  | symbol {c : Char} : c.isAlpha = false → isNumeralChar c = false → isInk c = true →
      IsLexeme [c]

/-- A text that does not go on with a word or a numeral in front of it. -/
def Breaks (cs : List Char) : Prop :=
  ∀ c ∈ cs.head?, c.isAlphanum = false ∧ isNumeralChar c = false

theorem breaks_nil : Breaks [] := by simp [Breaks]

theorem breaks_cons {c : Char} (h : c.isAlphanum = false ∧ isNumeralChar c = false)
    (cs : List Char) : Breaks (c :: cs) := by simpa [Breaks] using h

theorem takeWhile_append_of_head {p : Char → Bool} {l tail : List Char}
    (hl : ∀ a ∈ l, p a = true) (ht : ∀ c ∈ tail.head?, p c = false) :
    (l ++ tail).takeWhile p = l := by
  rw [List.takeWhile_append_of_pos hl]
  cases tail with
  | nil => simp
  | cons c tail => simp [ht c rfl]

theorem IsLexeme.ne_nil {l : List Char} (h : IsLexeme l) : l ≠ [] := by
  cases h <;> simp

theorem IsLexeme.trimmed {l : List Char} (h : IsLexeme l) (tail : List Char) :
    trimmed (l ++ tail) = l ++ tail := by
  cases h with
  | word hc _ => exact trimmed_of_isInk (isInk_of_isAlpha hc) _
  | numeral hc _ => exact trimmed_of_isInk (isInk_of_isNumeralChar hc) _
  | symbol _ _ hc => exact trimmed_of_isInk hc _

theorem IsLexeme.lexeme {l tail : List Char} (h : IsLexeme l) (ht : Breaks tail) :
    lexeme (l ++ tail) = l := by
  cases h with
  | word hc hcs =>
    have htake := takeWhile_append_of_head hcs fun c hc => (ht c hc).1
    simp only [List.cons_append, Kaleidoscope.lexeme, hc, if_true, htake]
  | @numeral c cs hc hcs =>
    have ha := isAlpha_of_isNumeralChar hc
    have htake := takeWhile_append_of_head hcs fun c hc => (ht c hc).2
    simp only [List.cons_append, Kaleidoscope.lexeme, ha, hc, if_true, htake, Bool.false_eq_true,
      if_false]
  | symbol ha hn _ =>
    simp only [List.cons_append, List.nil_append, Kaleidoscope.lexeme, ha, hn,
      Bool.false_eq_true, if_false]

theorem IsLexeme.divides {l tail : List Char} {ls : List (List Char)} (h : IsLexeme l)
    (ht : Breaks tail) (hd : Divides tail ls) : Divides (l ++ tail) (l :: ls) :=
  .lexeme (h.trimmed tail) h.ne_nil (h.lexeme ht) hd

theorem divides_symbol {c : Char} {tail : List Char} {ls : List (List Char)}
    (h : c.isAlpha = false ∧ isNumeralChar c = false ∧ isInk c = true) (hd : Divides tail ls) :
    Divides (c :: tail) ([c] :: ls) := by
  obtain ⟨ha, hn, hi⟩ := h
  refine .lexeme (l := [c]) (trimmed_of_isInk hi tail) (by simp) ?_ hd
  simp only [List.cons_append, List.nil_append, lexeme, ha, hn, Bool.false_eq_true, if_false]

theorem divides_space {tail : List Char} {ls : List (List Char)} (h : Divides tail ls) :
    Divides (' ' :: tail) ls := by
  cases h with
  | done ht => exact .done ((trimmed_space tail).trans ht)
  | lexeme ht hne hl hd => exact .lexeme ((trimmed_space tail).trans ht) hne hl hd

theorem divides_nil : Divides [] [] := .done rfl

theorem isLexeme_lexeme {c : Char} (h : isInk c = true) (cs : List Char) :
    IsLexeme (lexeme (c :: cs)) := by
  have htake : ∀ (p : Char → Bool), ∀ a ∈ cs.takeWhile p, p a = true :=
    fun p => List.all_eq_true.1 List.all_takeWhile
  cases ha : c.isAlpha with
  | true =>
    simp only [lexeme, ha, if_true]
    exact .word ha (htake _)
  | false =>
    cases hn : isNumeralChar c with
    | true =>
      simp only [lexeme, ha, hn, if_true, Bool.false_eq_true, if_false]
      exact .numeral hn (htake _)
    | false =>
      simp only [lexeme, ha, hn, Bool.false_eq_true, if_false]
      exact .symbol ha hn h

theorem lexeme_of_lex {text : String} (hi : ∀ c ∈ text.toList, isInk c = true) {t : Token}
    {finish : Position} (h : lex text = [t, .endOfInput finish]) :
    IsLexeme text.toList ∧ t.unplaced = Token.ofLexeme {} text.toList := by
  obtain ⟨ls, hd⟩ := exists_divides text.toList
  have hmap := hd.lex
  rw [h] at hmap
  have hlen := congrArg List.length hmap
  simp only [bareTokens, List.length_map, List.length_append, List.length_cons,
    List.length_nil] at hlen
  obtain ⟨l, rfl⟩ := List.length_eq_one_iff.1 (show ls.length = 1 by omega)
  simp only [bareTokens, List.map_cons, List.cons_append, List.nil_append,
    List.cons.injEq] at hmap
  cases hd with
  | @lexeme _ _ rest _ ht hne hl hrest =>
    rw [trimmed_of_forall_isInk hi] at ht
    have hri : ∀ c ∈ rest, isInk c = true := fun c hc => hi c (by simp [ht, hc])
    cases hrest with
    | done hr =>
      rw [trimmed_of_forall_isInk hri] at hr
      rw [hr, List.append_nil] at ht hl
      obtain ⟨c, cs, rfl⟩ := List.exists_cons_of_ne_nil hne
      have hlex := isLexeme_lexeme (hi c (by simp [ht])) cs
      rw [hl] at hlex
      rw [ht]
      exact ⟨hlex, hmap.1⟩

theorem isInk_of_lex {text : String} {c : Char} (hc : text.toList = [c]) {t : Token}
    {finish : Position} (h : lex text = [t, .endOfInput finish]) : isInk c = true := by
  obtain ⟨ls, hd⟩ := exists_divides text.toList
  have hlen := congrArg List.length hd.lex
  rw [hc] at hd
  cases hd with
  | done => simp [h, bareTokens] at hlen
  | lexeme ht hne _ _ =>
    refine isInk_of_trimmed (show trimmed [c] = [c] from ?_)
    simp only [trimmed] at ht ⊢
    cases hn : triviaLength false [c] with
    | zero => rfl
    | succ n => simp [hn, hne] at ht

end Kaleidoscope
