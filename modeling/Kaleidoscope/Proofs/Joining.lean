import Kaleidoscope.Proofs.Decomposition
import Kaleidoscope.Proofs.Printing

/-! Texts put together. A line feed ends any comment and any lexeme, so what stands before it and
what stands behind it divide as if they stood alone; and the lexemes of a text stay what they are
when nothing is left between them but spaces. -/

set_option autoImplicit false

namespace Kaleidoscope

theorem triviaLength_line {inComment : Bool} {cs : List Char}
    (h : triviaLength inComment cs = cs.length) (tail : List Char) :
    triviaLength inComment (cs ++ '\n' :: tail) = cs.length + (triviaLength false tail + 1) := by
  fun_induction triviaLength inComment cs with
  | case1 inComment =>
    have he : endsComment '\n' = true := by decide
    have hb : Text.isBlank '\n' = true := by decide
    simp [triviaLength, he, hb]
  | case2 inComment c cs hc ih =>
    simp only [List.cons_append, triviaLength, hc, if_true, List.length_cons] at h ⊢
    rw [ih (by omega)]
    omega
  | case3 inComment c cs hc hb ih =>
    simp only [List.cons_append, triviaLength, hc, hb, if_true, Bool.false_eq_true, if_false,
      List.length_cons] at h ⊢
    rw [ih (by omega)]
    omega
  | case4 inComment cs hc hb ih =>
    simp only [List.cons_append, triviaLength, hc, hb, if_true, Bool.false_eq_true, if_false,
      List.length_cons] at h ⊢
    rw [ih (by omega)]
    omega
  | case5 inComment c cs hc hb hs => simp at h

theorem triviaLength_append {inComment : Bool} {cs : List Char}
    (h : triviaLength inComment cs < cs.length) (tail : List Char) :
    triviaLength inComment (cs ++ tail) = triviaLength inComment cs := by
  fun_induction triviaLength inComment cs with
  | case1 inComment => simp at h
  | case2 inComment c cs hc ih =>
    rw [List.cons_append, triviaLength, if_pos hc, ih (Nat.lt_of_succ_lt_succ h)]
  | case3 inComment c cs hc hb ih =>
    rw [List.cons_append, triviaLength, if_neg hc, if_pos hb, ih (Nat.lt_of_succ_lt_succ h)]
  | case4 inComment cs hc hb ih =>
    rw [List.cons_append, triviaLength, if_neg hc, if_neg hb, if_pos rfl,
      ih (Nat.lt_of_succ_lt_succ h)]
  | case5 inComment c cs hc hb hs =>
    rw [List.cons_append, triviaLength, if_neg hc, if_neg hb, if_neg hs]

theorem trimmed_line {cs : List Char} (h : trimmed cs = []) (tail : List Char) :
    trimmed (cs ++ '\n' :: tail) = trimmed tail := by
  have hle := triviaLength_le false cs
  have hlen : cs.length ≤ triviaLength false cs := List.drop_eq_nil_iff.1 h
  rw [trimmed, triviaLength_line (by omega), ← List.drop_drop, List.drop_left]
  simp only [List.drop_succ_cons, trimmed]

theorem trimmed_append {cs : List Char} (h : trimmed cs ≠ []) (tail : List Char) :
    trimmed (cs ++ tail) = trimmed cs ++ tail := by
  have hlt : triviaLength false cs < cs.length := by
    refine Nat.lt_of_not_le fun hle => h ?_
    exact List.drop_eq_nil_of_le hle
  rw [trimmed, triviaLength_append hlt, List.drop_append_of_le_length (by omega), trimmed]

theorem takeWhile_append_cons {p : Char → Bool} {c : Char} (h : p c = false) (cs tail : List Char) :
    (cs ++ c :: tail).takeWhile p = cs.takeWhile p := by
  induction cs with
  | nil => simp [h]
  | cons a cs ih => simp [List.takeWhile_cons, ih]

theorem lexeme_line {cs : List Char} (h : cs ≠ []) (tail : List Char) :
    lexeme (cs ++ '\n' :: tail) = lexeme cs := by
  obtain ⟨c, cs, rfl⟩ := List.exists_cons_of_ne_nil h
  have ha : Char.isAlphanum '\n' = false := by decide
  have hn : isNumeralChar '\n' = false := by decide
  simp only [List.cons_append, lexeme, takeWhile_append_cons ha, takeWhile_append_cons hn]

theorem Divides.of_trimmed {cs cs' : List Char} {ls : List (List Char)} (h : Divides cs ls)
    (he : trimmed cs' = trimmed cs) : Divides cs' ls := by
  cases h with
  | done ht => exact .done (he.trans ht)
  | lexeme ht hne hl hd => exact .lexeme (he.trans ht) hne hl hd

theorem Divides.line {cs tail : List Char} {ls ls' : List (List Char)} (h : Divides cs ls)
    (h' : Divides tail ls') : Divides (cs ++ '\n' :: tail) (ls ++ ls') := by
  induction h with
  | done ht => exact h'.of_trimmed (trimmed_line ht tail)
  | @lexeme cs l rest ls ht hne hl _ ih =>
    have hall : l ++ rest ≠ [] := by simp [hne]
    refine .lexeme ?_ hne ?_ ih
    · rw [trimmed_append (ht ▸ hall), ht, List.append_assoc]
    · rw [← List.append_assoc, lexeme_line hall, hl]

theorem startsWithInk_trimmed (cs : List Char) : StartsWithInk (trimmed cs) := by
  obtain ⟨gap, rest, rfl, hg, hr⟩ := exists_trivia cs
  rw [trimmed, hg.triviaLength_eq hr, List.drop_left]
  exact hr

theorem Divides.isLexeme {cs : List Char} {ls : List (List Char)} (h : Divides cs ls) :
    ∀ l ∈ ls, IsLexeme l := by
  induction h with
  | done => simp
  | @lexeme cs l rest ls ht hne hl _ ih =>
    refine List.forall_mem_cons.2 ⟨?_, ih⟩
    have hink := startsWithInk_trimmed cs
    obtain ⟨c, l, rfl⟩ := List.exists_cons_of_ne_nil hne
    rw [ht] at hink
    rw [← hl]
    exact isLexeme_lexeme (hink c rfl) (l ++ rest)

theorem Token.text_ofLexeme (start : Position) (cs : List Char) :
    (Token.ofLexeme start cs).text = String.ofList cs := by
  cases cs with
  | nil => rfl
  | cons c cs =>
    simp only [ofLexeme]
    split
    · rfl
    · split <;> rfl

theorem Double.nearest_ne_nan (n d : Nat) : nearest n d ≠ .nan := by
  intro h
  unfold nearest at h
  cases h

theorem readNumeral?_ne_nan {cs : List Char} {v : Double} (h : readNumeral? cs = some v) :
    v ≠ .nan := by
  simp only [readNumeral?] at h
  split at h
  · cases h
  · cases h
    exact Double.nearest_ne_nan _ _

theorem Token.payload_ofLexeme_ne (start : Position) (cs : List Char) :
    (Token.ofLexeme start cs).payload ≠ .number .nan := by
  cases cs with
  | nil => simp [ofLexeme, endOfInput]
  | cons c cs =>
    simp only [ofLexeme]
    split
    · simp
    · split
      · cases hv : readNumeral? (c :: cs) with
        | none => simp
        | some v => simpa using readNumeral?_ne_nan hv
      · simp

theorem bareTokens_tail {ls : List (List Char)} (h : ls ≠ []) :
    (bareTokens ls).tail = bareTokens ls.tail := by
  obtain ⟨l, ls, rfl⟩ := List.exists_cons_of_ne_nil h
  rfl

theorem texts_lex {text : String} {ls : List (List Char)} (h : Divides text.toList ls) :
    (lex text).map Token.text = ls.map String.ofList ++ [""] := by
  have hcomp : Token.text ∘ Token.unplaced = Token.text := rfl
  have hmap := congrArg (List.map Token.text) h.lex
  rw [List.map_map, hcomp] at hmap
  simp [hmap, bareTokens, Function.comp_def, Token.text_ofLexeme]

end Kaleidoscope
