import Kaleidoscope.Diagram
import Kaleidoscope.Proofs.Lexemes
import Mathlib.Data.List.Induction

/-! Quoted values of the DOT text. A backslash keeps a quote from ending the value, unless it stands
behind an odd number of other backslashes. Every quote of a value is kept so, but the backslashes of
the value itself can do the same to the quote that ends it. -/

set_option autoImplicit false

namespace Kaleidoscope.Dot

def backslashes (cs : List Char) : Nat := (cs.reverse.takeWhile (· == '\\')).length

/-- A value that ends where it should: bare, or in quotes of which the last is the first that no
backslash keeps. -/
inductive WellFormed : List Char → Prop where
  | name {cs : List Char} : isName cs = true → WellFormed cs
  | number {cs : List Char} : isNumber cs = true → WellFormed cs
  | quoted {inner : List Char} :
      (∀ before after, inner = before ++ '"' :: after → backslashes before % 2 = 1) →
      backslashes inner % 2 = 0 → WellFormed ('"' :: inner ++ ['"'])

theorem backslashes_concat (cs : List Char) (c : Char) :
    backslashes (cs ++ [c]) = if c = '\\' then backslashes cs + 1 else 0 := by
  unfold backslashes
  rw [List.reverse_append, List.reverse_singleton, List.singleton_append]
  split
  · next h => simp [h]
  · next h => simp [h]

/-- Is the number of backslashes at the end odd, when it is so in front? -/
def oddAfter (odd : Bool) (cs : List Char) : Bool :=
  cs.foldl (fun odd c => c == '\\' && !odd) odd

theorem oddAfter_append (odd : Bool) (cs ds : List Char) :
    oddAfter odd (cs ++ ds) = oddAfter (oddAfter odd cs) ds := List.foldl_append ..

theorem oddAfter_false (cs : List Char) :
    oddAfter false cs = decide (backslashes cs % 2 = 1) := by
  induction cs using List.reverseRecOn with
  | nil => rfl
  | append_singleton cs c ih =>
    rw [oddAfter_append, ih, backslashes_concat]
    by_cases hc : c = '\\'
    · rcases Nat.mod_two_eq_zero_or_one (backslashes cs) with h | h
      · simp [oddAfter, hc, h, Nat.add_mod]
      · simp [oddAfter, hc, h, Nat.add_mod]
    · simp [oddAfter, hc]

theorem oddAfter_backslash (odd : Bool) (cs : List Char) :
    oddAfter odd ('\\' :: cs) = oddAfter (!odd) cs := by simp [oddAfter]

theorem oddAfter_cons {c : Char} (h : c ≠ '\\') (odd : Bool) (cs : List Char) :
    oddAfter odd (c :: cs) = oddAfter false cs := by
  simp only [oddAfter, List.foldl_cons, beq_false_of_ne h, Bool.false_and]

theorem escapeQuotes_backslash (odd : Bool) (cs : List Char) :
    escapeQuotes odd ('\\' :: cs) = '\\' :: escapeQuotes (!odd) cs := by simp [escapeQuotes]

theorem escapeQuotes_quote (cs : List Char) :
    escapeQuotes false ('"' :: cs) = '\\' :: '"' :: escapeQuotes false cs := by simp [escapeQuotes]

theorem escapeQuotes_kept (cs : List Char) :
    escapeQuotes true ('"' :: cs) = '"' :: escapeQuotes false cs := by simp [escapeQuotes]

theorem escapeQuotes_cons {c : Char} (h : c ≠ '\\') (h' : c ≠ '"') (odd : Bool) (cs : List Char) :
    escapeQuotes odd (c :: cs) = c :: escapeQuotes false cs := by simp [escapeQuotes, h, h']

theorem escapeQuotes_append {cs : List Char} (h : ∀ c ∈ cs, isNamePart c = true)
    (ds : List Char) : escapeQuotes false (cs ++ ds) = cs ++ escapeQuotes false ds := by
  induction cs with
  | nil => rfl
  | cons c cs ih =>
    obtain ⟨hc, hcs⟩ := List.forall_mem_cons.1 h
    have hb : c ≠ '\\' := by
      rintro rfl
      exact absurd hc (by decide)
    have hq : c ≠ '"' := by
      rintro rfl
      exact absurd hc (by decide)
    rw [List.cons_append, escapeQuotes_cons hb hq, ih hcs, List.cons_append]

theorem oddAfter_escapeQuotes (odd : Bool) (cs : List Char) :
    oddAfter odd (escapeQuotes odd cs) = oddAfter odd cs := by
  induction cs generalizing odd with
  | nil => rfl
  | cons c cs ih =>
    by_cases hb : c = '\\'
    · rw [hb, escapeQuotes_backslash, oddAfter_backslash, oddAfter_backslash, ih]
    · by_cases hq : c = '"'
      · subst hq
        cases odd with
        | false =>
          rw [escapeQuotes_quote, oddAfter_backslash, oddAfter_cons hb, oddAfter_cons hb, ih]
        | true => rw [escapeQuotes_kept, oddAfter_cons hb, oddAfter_cons hb, ih]
      · rw [escapeQuotes_cons hb hq, oddAfter_cons hb, oddAfter_cons hb, ih]

theorem oddAfter_of_escapeQuotes {odd : Bool} {cs before after : List Char}
    (h : escapeQuotes odd cs = before ++ '"' :: after) : oddAfter odd before = true := by
  induction cs generalizing odd before with
  | nil => simp [escapeQuotes] at h
  | cons c cs ih =>
    by_cases hb : c = '\\'
    · rw [hb, escapeQuotes_backslash] at h
      cases before with
      | nil => cases h
      | cons b before =>
        obtain ⟨hfirst, htail⟩ := List.cons.inj h
        rw [← hfirst, oddAfter_backslash]
        exact ih htail
    · by_cases hq : c = '"'
      · subst hq
        cases odd with
        | false =>
          rw [escapeQuotes_quote] at h
          rcases before with _ | ⟨b, _ | ⟨b', before⟩⟩
          · cases h
          · cases h
            rfl
          · obtain ⟨hfirst, hrest⟩ := List.cons.inj h
            obtain ⟨hsecond, htail⟩ := List.cons.inj hrest
            rw [← hfirst, ← hsecond, oddAfter_backslash, oddAfter_cons hb]
            exact ih htail
        | true =>
          rw [escapeQuotes_kept] at h
          cases before with
          | nil => rfl
          | cons b before =>
            obtain ⟨hfirst, htail⟩ := List.cons.inj h
            rw [← hfirst, oddAfter_cons hb]
            exact ih htail
      · rw [escapeQuotes_cons hb hq] at h
        cases before with
        | nil => exact absurd (List.cons.inj h).1 hq
        | cons b before =>
          obtain ⟨hfirst, htail⟩ := List.cons.inj h
          rw [← hfirst, oddAfter_cons hb]
          exact ih htail

theorem wellFormed_escapeQuotes (cs : List Char) :
    WellFormed ('"' :: escapeQuotes false cs ++ ['"']) ↔ backslashes cs % 2 = 0 := by
  have hend := oddAfter_escapeQuotes false cs
  rw [oddAfter_false, oddAfter_false, decide_eq_decide] at hend
  constructor
  · intro h
    generalize hs : '"' :: escapeQuotes false cs ++ ['"'] = text at h
    cases h with
    | name hn => subst hs; simp [isName, isNameStart] at hn
    | number hn => subst hs; simp [isNumber, isUnsigned] at hn
    | quoted hq he =>
      have hinner := List.append_cancel_right (List.cons.inj hs).2
      rw [← hinner] at he
      omega
  · intro h
    refine .quoted (fun before after he => ?_) (by omega)
    have hodd := oddAfter_of_escapeQuotes he
    rw [oddAfter_false] at hodd
    exact of_decide_eq_true hodd

/-- A value that begins as a name does, and stands on one line. -/
structure Wordy (s : String) : Prop where
  start : ∃ c cs, s.toList = c :: cs ∧ isNameStart c = true
  oneLine : '\n' ∉ s.toList

theorem dropFinalNewline_eq {cs : List Char} (h : '\n' ∉ cs) : dropFinalNewline cs = cs := by
  induction cs with
  | nil => rfl
  | cons c cs ih =>
    rw [List.mem_cons, not_or] at h
    rw [dropFinalNewline, ih h.2]
    rintro rfl -
    exact h.1 rfl

theorem isNumber_eq_false {c : Char} (h : isNameStart c = true) (cs : List Char) :
    isNumber (c :: cs) = false := by
  have hne : ∀ d, isNameStart d = false → c ≠ d := by
    rintro d hd rfl
    rw [h] at hd
    cases hd
  have hdigit : c.isDigit = false := by
    rcases Bool.or_eq_true_iff.1 h with ha | hu
    · have hnumeral := isNumeralChar_of_isAlpha ha
      exact (Bool.or_eq_false_iff.1 hnumeral).1
    · rw [eq_of_beq hu]
      decide
  unfold isNumber
  split
  · next he => exact absurd (List.cons.inj he).1 (hne '-' (by decide))
  · unfold isUnsigned
    simp only [List.takeWhile_cons, hdigit, List.length_nil, List.drop_zero, Bool.false_eq_true,
      if_false]
    split
    · next he => cases he
    · next he => exact absurd (List.cons.inj he).1 (hne '.' (by decide))
    · rfl

theorem isMarkup_eq_false {c : Char} (h : isNameStart c = true) (cs : List Char) :
    isMarkup (c :: cs) = false := by
  unfold isMarkup
  split
  · next he =>
    rw [(List.cons.inj he).1] at h
    exact absurd h (by decide)
  · rfl

theorem Wordy.value_cases {s : String} (h : Wordy s) :
    (isName s.toList = true ∧ isKeyword s.toList = false ∧ value s = s) ∨
      value s = String.ofList ('"' :: escapeQuotes false s.toList ++ ['"']) := by
  obtain ⟨c, cs, hs, hc⟩ := h.start
  have hcore := dropFinalNewline_eq h.oneLine
  have hmarkup : isMarkup s.toList = false := hs ▸ isMarkup_eq_false hc cs
  have hnumber : isNumber s.toList = false := hs ▸ isNumber_eq_false hc cs
  simp only [value, hcore, hmarkup, hnumber]
  cases isName s.toList <;> cases isKeyword s.toList <;> simp

theorem isNamePart_of_isName {cs : List Char} (h : isName cs = true) :
    ∀ c ∈ cs, isNamePart c = true := by
  cases cs with
  | nil => simp
  | cons c cs =>
    obtain ⟨hc, hcs⟩ := Bool.and_eq_true_iff.1 h
    refine List.forall_mem_cons.2 ⟨?_, List.all_eq_true.1 hcs⟩
    simp only [isNameStart, isNamePart, Char.isAlphanum, Bool.or_eq_true] at hc ⊢
    rcases hc with hc | hc
    · exact .inl (.inl hc)
    · exact .inr hc

theorem backslashes_of_isName {cs : List Char} (h : isName cs = true) : backslashes cs = 0 := by
  have hnone : '\\' ∉ cs := fun hmem => absurd (isNamePart_of_isName h _ hmem) (by decide)
  rcases List.eq_nil_or_concat cs with rfl | ⟨ds, d, rfl⟩
  · rfl
  · rw [List.concat_eq_append] at hnone ⊢
    rw [backslashes_concat, if_neg (by rintro rfl; simp at hnone)]

/-- The value ends where it should, unless a backslash keeps the quote at its end. -/
theorem Wordy.wellFormed_iff {s : String} (h : Wordy s) :
    WellFormed (value s).toList ↔ backslashes s.toList % 2 = 0 := by
  rcases h.value_cases with ⟨hn, -, hv⟩ | hv
  · rw [hv]
    refine ⟨fun _ => ?_, fun _ => .name hn⟩
    rw [backslashes_of_isName hn]
  · rw [hv, String.toList_ofList]
    exact wellFormed_escapeQuotes s.toList

end Kaleidoscope.Dot
