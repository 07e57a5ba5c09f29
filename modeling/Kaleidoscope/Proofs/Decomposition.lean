import Kaleidoscope.Proofs.Lexemes

/-! How a text decomposes: trivia and longest lexemes by turns, each token at the place of its first
character, and the end of the input behind the last one. A text decomposes in one way, and scanning
it gives the tokens of that decomposition. -/

set_option autoImplicit false

namespace Kaleidoscope

/-- The line and the column of what comes next, behind some characters; both count from one. -/
def Position.behind (cs : List Char) : Position :=
  ⟨1 + (cs.count '\n' : Int), 1 + ((cs.reverse.takeWhile (· != '\n')).length : Int)⟩

theorem Position.behind_concat (cs : List Char) (c : Char) :
    behind (cs ++ [c]) = (behind cs).after (some c) := by
  by_cases hc : c = '\n'
  · subst hc
    simp [behind, after, List.count_append]
    omega
  · simp [behind, after, List.count_append, hc]
    omega

/-- Blanks and comments in front of `tail`. A comment goes on to the end of its line. -/
inductive Trivia (tail : List Char) : List Char → Prop where
  | none : Trivia tail []
  | blank {c : Char} {cs : List Char} : Text.isBlank c = true → Trivia tail cs →
      Trivia tail (c :: cs)
  | comment {body cs : List Char} : (∀ c ∈ body, endsComment c = false) →
      (∀ c ∈ (cs ++ tail).head?, endsComment c = true) → Trivia tail cs →
      Trivia tail ('#' :: (body ++ cs))

def StartsWithInk (cs : List Char) : Prop := ∀ c ∈ cs.head?, isInk c = true

theorem triviaLength_comment {body : List Char} (h : ∀ c ∈ body, endsComment c = false)
    (cs : List Char) : triviaLength true (body ++ cs) = body.length + triviaLength true cs := by
  induction body with
  | nil => simp
  | cons c body ih =>
    obtain ⟨hc, hbody⟩ := List.forall_mem_cons.1 h
    simp only [List.cons_append, triviaLength, hc, Bool.not_false, Bool.and_self, if_true,
      ih hbody, List.length_cons]
    omega

theorem triviaLength_of_ends {cs : List Char} (h : ∀ c ∈ cs.head?, endsComment c = true) :
    triviaLength true cs = triviaLength false cs := by
  cases cs with
  | nil => rfl
  | cons c cs => simp [triviaLength, h c rfl]

theorem isBlank_hash : Text.isBlank '#' = false := isBlank_eq_false (by decide) (by decide)

theorem Trivia.triviaLength_eq {tail gap : List Char} (h : Trivia tail gap) (ht : StartsWithInk tail) :
    triviaLength false (gap ++ tail) = gap.length := by
  induction h with
  | none =>
    cases tail with
    | nil => rfl
    | cons c tail =>
      obtain ⟨hb, hc⟩ := isInk_iff.1 (ht c rfl)
      simp [triviaLength, hb, hc]
  | blank hb _ ih => simp [triviaLength, hb, ih]
  | comment hbody hend _ ih =>
    simp only [List.cons_append, List.append_assoc, triviaLength, Bool.false_and,
      Bool.false_eq_true, if_false, isBlank_hash, if_true, triviaLength_comment hbody,
      triviaLength_of_ends hend, ih, List.length_cons, List.length_append]

theorem eq_false_of_head_dropWhile {p : Char → Bool} {cs : List Char} {c : Char}
    (h : c ∈ (cs.dropWhile p).head?) : p c = false := by
  have hnot := List.head?_dropWhile_not p cs
  rw [Option.mem_def.1 h] at hnot
  simpa using hnot

theorem exists_trivia (cs : List Char) :
    ∃ gap rest, cs = gap ++ rest ∧ Trivia rest gap ∧ StartsWithInk rest := by
  induction hn : cs.length using Nat.strongRecOn generalizing cs with
  | ind n ih =>
    cases cs with
    | nil => exact ⟨[], [], rfl, .none, by simp [StartsWithInk]⟩
    | cons c cs =>
      simp only [List.length_cons] at hn
      by_cases hb : Text.isBlank c = true
      · obtain ⟨gap, rest, rfl, hg, hr⟩ := ih cs.length (by omega) cs rfl
        exact ⟨c :: gap, rest, rfl, .blank hb hg, hr⟩
      by_cases hc : c = '#'
      · subst hc
        have hsplit := List.takeWhile_append_dropWhile (p := (!endsComment ·)) (l := cs)
        have hlen := congrArg List.length hsplit
        rw [List.length_append] at hlen
        obtain ⟨gap, rest, hrest, hg, hr⟩ :=
          ih (cs.dropWhile (!endsComment ·)).length (by omega) _ rfl
        refine ⟨'#' :: (comment cs ++ gap), rest, ?_, .comment ?_ ?_ hg, hr⟩
        · rw [List.cons_append, List.append_assoc, ← hrest, comment, hsplit]
        · intro a ha
          have := List.all_eq_true.1 List.all_takeWhile a ha
          simpa using this
        · intro a ha
          rw [← hrest] at ha
          simpa using eq_false_of_head_dropWhile ha
      · exact ⟨[], c :: cs, rfl, .none, by simp [StartsWithInk, isInk_iff, hb, hc]⟩

inductive IsWord : List Char → TokenKind → Prop where
  | define : IsWord ['d', 'e', 'f'] .define
  | external : IsWord ['e', 'x', 't', 'e', 'r', 'n'] .external
  | identifier {cs : List Char} : cs ≠ ['d', 'e', 'f'] → cs ≠ ['e', 'x', 't', 'e', 'r', 'n'] →
      IsWord cs .identifier

/-- What a run of digits and points carries: the double nearest to the number that is written, and
nothing if there is no digit or a second point. -/
inductive IsNumber : List Char → Payload → Prop where
  | whole {cs : List Char} : cs ≠ [] → '.' ∉ cs →
      IsNumber cs (.number (.nearest (digitsValue cs) 1))
  | point {cs ds : List Char} : '.' ∉ cs → '.' ∉ ds → cs ++ ds ≠ [] →
      IsNumber (cs ++ '.' :: ds)
        (.number (.nearest (digitsValue (cs ++ ds)) (Nat.pow 10 ds.length)))
  | malformed {cs : List Char} : (∀ c ∈ cs, c.isDigit = false) ∨ 2 ≤ cs.count '.' →
      IsNumber cs .none

/-- The longest lexeme in front of `tail`, and its token. -/
inductive Reads (tail : List Char) : List Char → Token → Prop where
  | word {c : Char} {cs : List Char} {kind : TokenKind} {start : Position} : c.isAlpha = true →
      (∀ a ∈ cs, a.isAlphanum = true) → (∀ a ∈ tail.head?, a.isAlphanum = false) →
      IsWord (c :: cs) kind → Reads tail (c :: cs)
        ⟨kind, .text (String.ofList (c :: cs)), start, String.ofList (c :: cs)⟩
  | number {c : Char} {cs : List Char} {payload : Payload} {start : Position} :
      isNumeralChar c = true → (∀ a ∈ cs, isNumeralChar a = true) →
      (∀ a ∈ tail.head?, isNumeralChar a = false) → IsNumber (c :: cs) payload →
      Reads tail (c :: cs) ⟨.number, payload, start, String.ofList (c :: cs)⟩
  | symbol {c : Char} {start : Position} : c.isAlpha = false → isNumeralChar c = false →
      isInk c = true →
      Reads tail [c] ⟨.character, .text (String.ofList [c]), start, String.ofList [c]⟩

theorem IsWord.wordKind_eq {cs : List Char} {kind : TokenKind} (h : IsWord cs kind) :
    wordKind (String.ofList cs) = kind := by
  cases h with
  | define => decide
  | external => decide
  | identifier hd hx =>
    have hd : String.ofList cs ≠ "def" := fun he => hd (by rw [← String.toList_ofList (l := cs), he]; rfl)
    have hx : String.ofList cs ≠ "extern" := fun he => hx (by rw [← String.toList_ofList (l := cs), he]; rfl)
    rw [wordKind, if_neg hd, if_neg hx]

theorem exists_isWord (cs : List Char) : ∃ kind, IsWord cs kind := by
  by_cases hd : cs = ['d', 'e', 'f']
  · subst hd
    exact ⟨_, .define⟩
  by_cases hx : cs = ['e', 'x', 't', 'e', 'r', 'n']
  · subst hx
    exact ⟨_, .external⟩
  · exact ⟨_, .identifier hd hx⟩

theorem readNumeral?_whole {cs : List Char} (h : '.' ∉ cs) :
    readNumeral? cs = if cs.isEmpty then none else some (.nearest (digitsValue cs) 1) := by
  have htake : cs.takeWhile (· != '.') = cs := by
    have hall : ∀ c ∈ cs, (c != '.') = true := fun c hc => bne_iff_ne.2 fun he => h (he ▸ hc)
    rw [← List.append_nil cs, List.takeWhile_append_of_pos hall]
    simp
  have hdrop : cs.drop (cs.length + 1) = [] := List.drop_eq_nil_of_le (by omega)
  simp only [readNumeral?, htake, hdrop, List.append_nil, List.contains_nil, Bool.false_or]
  rfl

theorem readNumeral?_point {cs ds : List Char} (h : '.' ∉ cs) :
    readNumeral? (cs ++ '.' :: ds) = if ds.contains '.' || (cs ++ ds).isEmpty then none
      else some (.nearest (digitsValue (cs ++ ds)) (Nat.pow 10 ds.length)) := by
  have htake : (cs ++ '.' :: ds).takeWhile (· != '.') = cs :=
    takeWhile_append_of_head (fun c hc => bne_iff_ne.2 fun he => h (he ▸ hc)) (by simp)
  have hdrop : (cs ++ '.' :: ds).drop (cs.length + 1) = ds := by
    simp [List.drop_append]
  simp only [readNumeral?, htake, hdrop]

theorem pointless_or_split (cs : List Char) :
    '.' ∉ cs ∨ ∃ ws ds, cs = ws ++ '.' :: ds ∧ '.' ∉ ws := by
  by_cases h : '.' ∈ cs
  · obtain ⟨ws, ds, rfl, hws⟩ := List.eq_append_cons_of_mem h
    exact .inr ⟨ws, ds, rfl, hws⟩
  · exact .inl h

theorem eq_point {c : Char} (hc : isNumeralChar c = true) (hd : c.isDigit = false) : c = '.' := by
  simpa [isNumeralChar, hd] using hc

theorem readNumeral?_undigited {cs : List Char} (hne : cs ≠ [])
    (hcs : ∀ c ∈ cs, isNumeralChar c = true) (h : ∀ c ∈ cs, c.isDigit = false) :
    readNumeral? cs = none := by
  have hall : ∀ c ∈ cs, c = '.' := fun c hc => eq_point (hcs c hc) (h c hc)
  obtain ⟨c, cs, rfl⟩ := List.exists_cons_of_ne_nil hne
  obtain ⟨hc, htail⟩ := List.forall_mem_cons.1 hall
  subst hc
  rw [← List.nil_append ('.' :: cs), readNumeral?_point (by simp), if_pos]
  cases cs with
  | nil => rfl
  | cons d ds => simp [htail d (by simp)]

theorem readNumeral?_pointed {cs : List Char} (h : 2 ≤ cs.count '.') :
    readNumeral? cs = none := by
  obtain hp | ⟨ws, ds, rfl, hws⟩ := pointless_or_split cs
  · rw [List.count_eq_zero.2 hp] at h
    omega
  · rw [List.count_append, List.count_eq_zero.2 hws, List.count_cons_self] at h
    have hds : '.' ∈ ds := List.count_pos_iff.1 (by omega)
    rw [readNumeral?_point hws, if_pos (by simp [hds])]

theorem IsNumber.readNumeral?_eq {cs : List Char} (hne : cs ≠ [])
    (hcs : ∀ c ∈ cs, isNumeralChar c = true) {payload : Payload} (h : IsNumber cs payload) :
    (readNumeral? cs).elim .none .number = payload := by
  cases h with
  | whole hne h =>
    rw [readNumeral?_whole h, if_neg (by simpa using hne)]
    rfl
  | @point cs ds hc hd hnil =>
    have hgood : ¬ (ds.contains '.' || (cs ++ ds).isEmpty) = true := by
      rw [Bool.or_eq_true, List.contains_iff_mem, List.isEmpty_iff]
      exact not_or.2 ⟨hd, hnil⟩
    rw [readNumeral?_point hc, if_neg hgood]
    rfl
  | malformed h =>
    obtain h | h := h
    · rw [readNumeral?_undigited hne hcs h]
      rfl
    · rw [readNumeral?_pointed h]
      rfl

theorem exists_isNumber {cs : List Char} (hne : cs ≠ []) : ∃ payload, IsNumber cs payload := by
  obtain hp | ⟨ws, ds, rfl, hws⟩ := pointless_or_split cs
  · exact ⟨_, .whole hne hp⟩
  · by_cases hds : '.' ∈ ds
    · refine ⟨_, .malformed (.inr ?_)⟩
      have := List.count_pos_iff.2 hds
      rw [List.count_append, List.count_cons_self]
      omega
    by_cases hnil : ws ++ ds = []
    · refine ⟨_, .malformed (.inl ?_)⟩
      obtain ⟨rfl, rfl⟩ := List.append_eq_nil_iff.1 hnil
      simp
    · exact ⟨_, .point hws hds hnil⟩

section Reads

variable {tail l : List Char} {t : Token}

theorem Reads.isLexeme (h : Reads tail l t) : IsLexeme l := by
  cases h with
  | word hc hcs _ _ => exact .word hc hcs
  | number hc hcs _ _ => exact .numeral hc hcs
  | symbol ha hn hi => exact .symbol ha hn hi

theorem Reads.eq_ofLexeme (h : Reads tail l t) : t = Token.ofLexeme t.start l := by
  cases h with
  | word hc _ _ hk => simp only [Token.ofLexeme, hc, if_true, hk.wordKind_eq]
  | number hc hcs _ hv =>
    have hall : ∀ a ∈ _ :: _, isNumeralChar a = true := List.forall_mem_cons.2 ⟨hc, hcs⟩
    simp only [Token.ofLexeme, isAlpha_of_isNumeralChar hc, hc, if_true, Bool.false_eq_true,
      if_false, hv.readNumeral?_eq (List.cons_ne_nil _ _) hall]
  | symbol ha hn _ =>
    simp only [Token.ofLexeme, ha, hn, Bool.false_eq_true, if_false]

theorem Reads.kind_ne (h : Reads tail l t) : t.kind ≠ .endOfInput := by
  obtain ⟨c, cs, rfl⟩ := List.exists_cons_of_ne_nil h.isLexeme.ne_nil
  rw [h.eq_ofLexeme]
  exact Token.kind_ofLexeme_cons t.start c cs

theorem Reads.lexeme_eq (h : Reads tail l t) : lexeme (l ++ tail) = l := by
  cases h with
  | word hc hcs ht _ =>
    simp only [List.cons_append, lexeme, hc, if_true, takeWhile_append_of_head hcs ht]
  | number hc hcs ht _ =>
    simp only [List.cons_append, lexeme, isAlpha_of_isNumeralChar hc, hc, if_true,
      takeWhile_append_of_head hcs ht, Bool.false_eq_true, if_false]
  | symbol ha hn _ =>
    simp only [List.cons_append, List.nil_append, lexeme, ha, hn, Bool.false_eq_true, if_false]

theorem Reads.startsWithInk (h : Reads tail l t) : StartsWithInk (l ++ tail) := by
  cases h with
  | word hc _ _ _ => simpa [StartsWithInk] using isInk_of_isAlpha hc
  | number hc _ _ _ => simpa [StartsWithInk] using isInk_of_isNumeralChar hc
  | symbol _ _ hi => simpa [StartsWithInk] using hi

theorem exists_reads {c : Char} (hi : isInk c = true) (cs : List Char) (start : Position) :
    ∃ l rest t, c :: cs = l ++ rest ∧ l ≠ [] ∧ t.start = start ∧ Reads rest l t := by
  have hsplit : ∀ p : Char → Bool, c :: cs = (c :: cs.takeWhile p) ++ cs.dropWhile p :=
    fun p => by rw [List.cons_append, List.takeWhile_append_dropWhile]
  have htake : ∀ p : Char → Bool, ∀ a ∈ cs.takeWhile p, p a = true :=
    fun p => List.all_eq_true.1 List.all_takeWhile
  have hdrop : ∀ p : Char → Bool, ∀ a ∈ (cs.dropWhile p).head?, p a = false :=
    fun p a ha => eq_false_of_head_dropWhile ha
  cases ha : c.isAlpha with
  | true =>
    obtain ⟨kind, hk⟩ := exists_isWord (c :: cs.takeWhile Char.isAlphanum)
    exact ⟨_, _, _, hsplit _, List.cons_ne_nil _ _, rfl, .word ha (htake _) (hdrop _) hk⟩
  | false =>
    cases hn : isNumeralChar c with
    | true =>
      obtain ⟨payload, hv⟩ := exists_isNumber (List.cons_ne_nil c (cs.takeWhile isNumeralChar))
      exact ⟨_, _, _, hsplit _, List.cons_ne_nil _ _, rfl, .number hn (htake _) (hdrop _) hv⟩
    | false =>
      exact ⟨[c], cs, ⟨.character, _, start, _⟩, rfl, List.cons_ne_nil _ _, rfl,
        .symbol ha hn hi⟩

end Reads

/-- The tokens of a text, behind what has been read before it. -/
inductive Decomposes : List Char → List Char → List Token → Prop where
  | finished {before gap : List Char} : Trivia [] gap →
      Decomposes before gap [.endOfInput (.behind (before ++ gap))]
  | token {before gap l rest : List Char} {t : Token} {w : List Token} :
      Trivia (l ++ rest) gap → Reads rest l t → t.start = .behind (before ++ gap) →
      Decomposes (before ++ gap ++ l) rest w → Decomposes before (gap ++ (l ++ rest)) (t :: w)

theorem exists_decomposes (before cs : List Char) : ∃ w, Decomposes before cs w := by
  induction hn : cs.length using Nat.strongRecOn generalizing before cs with
  | ind n ih =>
    obtain ⟨gap, rest, rfl, hg, hr⟩ := exists_trivia cs
    cases rest with
    | nil =>
      rw [List.append_nil]
      exact ⟨_, .finished hg⟩
    | cons c rest =>
      obtain ⟨l, rest', t, he, hl, hs, ht⟩ :=
        exists_reads (hr c rfl) rest (.behind (before ++ gap))
      rw [he] at hg hn ⊢
      have hpos := List.length_pos_iff.2 hl
      rw [List.length_append, List.length_append] at hn
      obtain ⟨w, hw⟩ := ih rest'.length (by omega) (before ++ gap ++ l) rest' rfl
      exact ⟨t :: w, .token hg ht hs hw⟩

theorem Decomposes.length_le {before cs : List Char} {w : List Token}
    (h : Decomposes before cs w) : w.length ≤ cs.length + 1 := by
  induction h with
  | finished => simp
  | @token before gap l rest t w _ ht _ _ ih =>
    have hpos := List.length_pos_iff.2 ht.isLexeme.ne_nil
    simp only [List.length_cons, List.length_append]
    omega

theorem Decomposes.ends {before cs : List Char} {w : List Token} (h : Decomposes before cs w) :
    ∃ ts, w = ts ++ [.endOfInput (.behind (before ++ cs))] ∧ ∀ t ∈ ts, t.kind ≠ .endOfInput := by
  induction h with
  | finished => exact ⟨[], rfl, by simp⟩
  | token _ ht _ _ ih =>
    obtain ⟨ts, rfl, hts⟩ := ih
    refine ⟨_ :: ts, by simp, List.forall_mem_cons.2 ⟨ht.kind_ne, hts⟩⟩

namespace Scanner

/-- A scanner that has passed some characters, with its position behind them. -/
structure StandsBehind (before : List Char) (s : Scanner) : Prop where
  steady : s.Steady
  position : s.position = .behind before

variable {s s' : Scanner} {before : List Char}

theorem position_of_advance (h : advance s = .ok () s') :
    s'.position = s.position.after s.current := by
  unfold advance at h
  split at h <;> cases h
  rfl

theorem StandsBehind.advance (hs : s.StandsBehind before) {c : Char} {cs : List Char}
    (he : s.ahead = c :: cs) :
    ∃ s', Scanner.advance s = .ok () s' ∧ s'.StandsBehind (before ++ [c]) ∧ s'.ahead = cs := by
  have hc : s.current = some c := by
    cases hcur : s.current with
    | none => simp [ahead, hcur, hs.steady.ended hcur] at he
    | some a => simp_all [ahead]
  obtain ⟨s', ha, hs', he'⟩ := hs.steady.advance
  refine ⟨s', ha, ⟨hs', ?_⟩, by rw [he', he]; rfl⟩
  rw [position_of_advance ha, hc, hs.position, Position.behind_concat]

theorem standsBehind_invariant (n : Nat) :
    Invariant n fun before cs s => s.StandsBehind before ∧ s.ahead = cs where
  ahead := fun h => h.2
  advance := fun h _ => h.1.advance h.2

theorem StandsBehind.next (hs : s.StandsBehind before) {gap l rest : List Char}
    (hg : triviaLength false s.ahead = gap.length) (he : s.ahead = gap ++ (l ++ rest))
    (hl : lexeme (l ++ rest) = l) :
    ∃ s', Scanner.next s = .ok (Token.ofLexeme (.behind (before ++ gap)) l) s' ∧
      s'.StandsBehind (before ++ gap ++ l) ∧ s'.ahead = rest := by
  obtain ⟨s₁, s₂, hs₁, hnext, hs₂⟩ :=
    (standsBehind_invariant _).next ⟨hs, he⟩ (he ▸ hg) hl (Nat.le_refl _)
  exact ⟨s₂, hs₁.1.position ▸ hnext, hs₂⟩

theorem StandsBehind.next_end (hs : s.StandsBehind before) (he : s.ahead = []) :
    Scanner.next s = .ok (.endOfInput (.behind before)) s := by
  rw [Scanner.next, look_bind, he]
  simp only [triviaLength, lexeme, Scanner.advanceBy, get_bind, look_bind, he, hs.position,
    pure_bind, List.length_nil, Token.ofLexeme]
  rfl

theorem StandsBehind.tokensWithin {cs : List Char} {w : List Token}
    (h : Decomposes before cs w) (hs : s.StandsBehind before) (he : s.ahead = cs) {n : Nat}
    (hn : w.length ≤ n) :
    ∃ s', Scanner.tokensWithin n s = .ok w s' ∧ s'.StandsBehind (before ++ cs) ∧
      s'.ahead = [] := by
  induction h generalizing s n with
  | @finished before gap hg =>
    obtain ⟨n, rfl⟩ := Nat.exists_eq_add_one.2 (show 0 < n by simp at hn; omega)
    have hlen := hg.triviaLength_eq (by simp [StartsWithInk])
    rw [List.append_nil] at hlen
    have hahead : s.ahead = gap ++ ([] ++ []) := by simp [he]
    obtain ⟨s', hnext, hs', he'⟩ := hs.next (he ▸ hlen) hahead rfl
    refine ⟨s', ?_, by rwa [List.append_nil] at hs', he'⟩
    rw [Scanner.tokensWithin, bind_ok hnext]
    rfl
  | @token before gap l rest t w hg ht hstart _ ih =>
    obtain ⟨n, rfl⟩ := Nat.exists_eq_add_one.2 (show 0 < n by simp at hn; omega)
    have hlen := hg.triviaLength_eq ht.startsWithInk
    obtain ⟨s₁, hnext, hs₁, he₁⟩ := hs.next (he ▸ hlen) he ht.lexeme_eq
    rw [← hstart, ← ht.eq_ofLexeme] at hnext
    simp only [List.length_cons] at hn
    obtain ⟨s₂, hw, hs₂, he₂⟩ := ih hs₁ he₁ (n := n) (by omega)
    refine ⟨s₂, ?_, by simpa using hs₂, he₂⟩
    rw [Scanner.tokensWithin, bind_ok hnext, if_neg ht.kind_ne, bind_ok hw]
    rfl

end Scanner

theorem Decomposes.scans {text : String} {w : List Token} (h : Decomposes [] text.toList w) :
    ∃ s, (do Scanner.advance; Scanner.tokens : Scan (List Token))
        (.unstarted (.ofText text)) = .ok w s ∧
      s.StandsBehind text.toList ∧ s.ahead = [] := by
  obtain ⟨s, ha, hs, hc⟩ := Scanner.unstarted_advance text
  have hp : s.position = .behind [] := Scanner.position_of_advance ha
  have hlen : w.length ≤ s.scans := by
    simp only [Scanner.scans, hc]
    exact h.length_le
  obtain ⟨s', hw, hs', he⟩ := Scanner.StandsBehind.tokensWithin h ⟨hs, hp⟩ hc hlen
  refine ⟨s', ?_, hs', he⟩
  rw [bind_ok ha, Scanner.tokens, Scanner.get_bind, hw]

theorem Decomposes.lex_eq {text : String} {w : List Token} (h : Decomposes [] text.toList w) :
    lex text = w := by
  obtain ⟨s, hs, -⟩ := h.scans
  rw [lex, Scanner.run'_ok hs, Option.getD_some]

theorem decomposes_lex (text : String) : Decomposes [] text.toList (lex text) := by
  obtain ⟨w, hw⟩ := exists_decomposes [] text.toList
  rwa [hw.lex_eq]

theorem lex_eq_iff {text : String} {w : List Token} :
    lex text = w ↔ Decomposes [] text.toList w :=
  ⟨fun h => h ▸ decomposes_lex text, Decomposes.lex_eq⟩

theorem IsNumber.eq_none_iff {cs : List Char} (hcs : ∀ c ∈ cs, isNumeralChar c = true)
    {payload : Payload} (h : IsNumber cs payload) :
    payload = .none ↔ (∀ c ∈ cs, c.isDigit = false) ∨ 2 ≤ cs.count '.' := by
  cases h with
  | whole hne hp =>
    refine ⟨by simp, ?_⟩
    rintro (hd | hc)
    · obtain ⟨c, cs, rfl⟩ := List.exists_cons_of_ne_nil hne
      have := eq_point (hcs c (by simp)) (hd c (by simp))
      simp [this] at hp
    · rw [List.count_eq_zero.2 hp] at hc
      omega
  | @point ws ds hw hd hnil =>
    refine ⟨by simp, ?_⟩
    rintro (hall | hc)
    · refine absurd (List.eq_nil_iff_forall_not_mem.2 fun c hc => ?_) hnil
      have hmem : c ∈ ws ++ '.' :: ds :=
        ((List.sublist_cons_self '.' ds).append_left ws).subset hc
      have := eq_point (hcs c hmem) (hall c hmem)
      subst this
      exact (List.mem_append.1 hc).elim hw hd
    · rw [List.count_append, List.count_eq_zero.2 hw, List.count_cons_self,
        List.count_eq_zero.2 hd] at hc
      omega
  | malformed h => exact ⟨fun _ => h, fun _ => rfl⟩

theorem Decomposes.reads_of_mem {before cs : List Char} {w : List Token}
    (h : Decomposes before cs w) :
    ∀ t ∈ w, t.kind ≠ .endOfInput → ∃ l rest, Reads rest l t := by
  induction h with
  | finished =>
    intro t ht hk
    rw [List.mem_singleton.1 ht] at hk
    exact absurd rfl hk
  | token _ ht _ _ ih => exact List.forall_mem_cons.2 ⟨fun _ => ⟨_, _, ht⟩, ih⟩

theorem Reads.payload_eq_none_iff {tail l : List Char} {t : Token} (h : Reads tail l t)
    (hk : t.kind = .number) :
    t.payload = .none ↔
      (∀ c ∈ t.text.toList, c.isDigit = false) ∨ 2 ≤ t.text.toList.count '.' := by
  cases h with
  | word _ _ _ hw => cases hw <;> cases hk
  | number hc hcs _ hv =>
    rw [String.toList_ofList]
    exact hv.eq_none_iff (List.forall_mem_cons.2 ⟨hc, hcs⟩)
  | symbol => cases hk

/-- Scanning a text gives the tokens of its one decomposition, the end of the input last. A numeral
carries nothing exactly if it has no digit or a second point. Once the end has been read, it is read
for ever, and the scanner stays where it is. -/
theorem lex_decomposes (text : String) :
    (∀ w, lex text = w ↔ Decomposes [] text.toList w) ∧
    (∃ ts, lex text = ts ++ [.endOfInput (.behind text.toList)] ∧
      ∀ t ∈ ts, t.kind ≠ .endOfInput) ∧
    (∀ t ∈ lex text, t.kind = .number → (t.payload = .none ↔
      (∀ c ∈ t.text.toList, c.isDigit = false) ∨ 2 ≤ t.text.toList.count '.')) ∧
    ∃ s, (do Scanner.advance; Scanner.tokens : Scan (List Token))
        (.unstarted (.ofText text)) = .ok (lex text) s ∧
      s.next = .ok (.endOfInput (.behind text.toList)) s := by
  refine ⟨fun w => lex_eq_iff, (decomposes_lex text).ends, ?_, ?_⟩
  · intro t ht hk
    obtain ⟨l, rest, hr⟩ := (decomposes_lex text).reads_of_mem t ht (by simp [hk])
    exact hr.payload_eq_none_iff hk
  · obtain ⟨s, hs, hb, he⟩ := (decomposes_lex text).scans
    exact ⟨s, hs, hb.next_end he⟩

theorem lex_decomposes_comment :
    let text := "define#c\r1.2.3x\n9"
    let word (s : String) (start : Position) : Token := ⟨.identifier, .text s, start, s⟩
    let malformed : Token := ⟨.number, .none, ⟨1, 10⟩, "1.2.3"⟩
    let nine : Token := ⟨.number, .number (.nearest 9 1), ⟨2, 1⟩, "9"⟩
    lex text =
        [word "define" ⟨1, 1⟩, malformed, word "x" ⟨1, 15⟩, nine, .endOfInput ⟨2, 2⟩] ∧
      Decomposes [] text.toList
        [word "define" ⟨1, 1⟩, malformed, word "x" ⟨1, 15⟩, nine, .endOfInput ⟨2, 2⟩] := by
  intro text word malformed nine
  have h : lex text =
      [word "define" ⟨1, 1⟩, malformed, word "x" ⟨1, 15⟩, nine, .endOfInput ⟨2, 2⟩] := by
    decide +kernel
  exact ⟨h, ((lex_decomposes text).1 _).1 h⟩

end Kaleidoscope
