import Kaleidoscope.Program
import Kaleidoscope.Proofs.Passage

/-! Scanning a text. A scanner whose source does not fail is steady: it divides what is ahead of it
into lexemes, and reading the tokens one by one comes to the same as reading them all. -/

set_option autoImplicit false

namespace Kaleidoscope

def Token.unplaced (t : Token) : Token := { t with start := {} }

theorem Token.unplaced_ofLexeme (start : Position) (cs : List Char) :
    (Token.ofLexeme start cs).unplaced = Token.ofLexeme {} cs := by
  cases cs with
  | nil => rfl
  | cons c cs =>
    simp only [ofLexeme]
    split
    · rfl
    · split <;> rfl

theorem Token.kind_ofLexeme_cons (start : Position) (c : Char) (cs : List Char) :
    (Token.ofLexeme start (c :: cs)).kind ≠ .endOfInput := by
  simp only [ofLexeme, wordKind]
  split
  · split
    · simp
    · split <;> simp
  · split <;> simp

def trimmed (cs : List Char) : List Char := cs.drop (triviaLength false cs)

/-- A text divides into lexemes, with trivia between them and at the end. -/
inductive Divides : List Char → List (List Char) → Prop where
  | done {cs : List Char} : trimmed cs = [] → Divides cs []
  | lexeme {cs l rest : List Char} {ls : List (List Char)} : trimmed cs = l ++ rest → l ≠ [] →
      lexeme (l ++ rest) = l → Divides rest ls → Divides cs (l :: ls)

theorem length_trimmed_le (cs : List Char) : (trimmed cs).length ≤ cs.length := by
  simp [trimmed]

theorem exists_divides (cs : List Char) : ∃ ls, Divides cs ls := by
  induction hn : cs.length using Nat.strongRecOn generalizing cs with
  | ind n ih =>
    by_cases ht : trimmed cs = []
    · exact ⟨[], .done ht⟩
    · obtain ⟨rest, hrest⟩ := lexeme_starts (trimmed cs)
      have hne : lexeme (trimmed cs) ≠ [] := fun h => ht ((lexeme_eq_nil_iff _).1 h)
      have hlen := congrArg List.length hrest
      have hle := length_trimmed_le cs
      have hpos := List.length_pos_iff.2 hne
      rw [List.length_append] at hlen
      obtain ⟨ls, hls⟩ := ih rest.length (by omega) rest rfl
      refine ⟨lexeme (trimmed cs) :: ls, .lexeme hrest.symm hne ?_ hls⟩
      rw [hrest]

namespace Scanner

theorem look_bind {β : Type} {k : List Char → Scan β} {s : Scanner} :
    (look >>= k) s = k s.ahead s := rfl

theorem run'_ok {α : Type} {x : Scan α} {s s' : Scanner} {a : α} (h : x s = .ok a s') :
    EStateM.run' x s = some a := by
  have hrun : EStateM.run x s = .ok a s' := h
  delta EStateM.run'
  rw [hrun]

theorem get_bind {β : Type} {k : Scanner → Scan β} {s : Scanner} :
    (get >>= k) s = k s s := rfl

/-- What holds of a scanner that has passed some characters, with others ahead of it, and is kept
by every advance up to `n` characters. -/
structure Invariant (n : Nat) (holds : List Char → List Char → Scanner → Prop) : Prop where
  ahead : ∀ {before cs : List Char} {s : Scanner}, holds before cs s → s.ahead = cs
  advance : ∀ {before cs : List Char} {c : Char} {s : Scanner}, holds before (c :: cs) s →
    before.length < n → ∃ s', Scanner.advance s = .ok () s' ∧ holds (before ++ [c]) cs s'

section Invariant

variable {n : Nat} {holds : List Char → List Char → Scanner → Prop} {before : List Char}
variable {s : Scanner}

theorem Invariant.advanceBy (hi : Invariant n holds) {l rest : List Char}
    (hs : holds before (l ++ rest) s) (hn : (before ++ l).length ≤ n) :
    ∃ s', Scanner.advanceBy l.length s = .ok () s' ∧ holds (before ++ l) rest s' := by
  induction l generalizing s before with
  | nil => exact ⟨s, rfl, by rwa [List.append_nil]⟩
  | cons c l ih =>
    have hlt : before.length < n := by
      simp only [List.length_append, List.length_cons] at hn
      omega
    obtain ⟨s₁, ha, hs₁⟩ := hi.advance hs hlt
    obtain ⟨s₂, hb, hs₂⟩ := ih hs₁ (by simpa using hn)
    refine ⟨s₂, ?_, by simpa using hs₂⟩
    rw [List.length_cons, Scanner.advanceBy, bind_ok ha, hb]

theorem Invariant.next (hi : Invariant n holds) {gap l rest : List Char}
    (hs : holds before (gap ++ (l ++ rest)) s)
    (hg : triviaLength false (gap ++ (l ++ rest)) = gap.length) (hl : lexeme (l ++ rest) = l)
    (hn : (before ++ gap ++ l).length ≤ n) :
    ∃ s₁ s₂, holds (before ++ gap) (l ++ rest) s₁ ∧
      Scanner.next s = .ok (Token.ofLexeme s₁.position l) s₂ ∧
      holds (before ++ gap ++ l) rest s₂ := by
  have hgap : (before ++ gap).length ≤ n := by
    rw [List.length_append] at hn
    omega
  obtain ⟨s₁, ha, hs₁⟩ := hi.advanceBy hs hgap
  obtain ⟨s₂, hb, hs₂⟩ := hi.advanceBy hs₁ hn
  refine ⟨s₁, s₂, hs₁, ?_, hs₂⟩
  rw [Scanner.next, look_bind, hi.ahead hs, hg, bind_ok ha, get_bind, look_bind, hi.ahead hs₁, hl,
    bind_ok hb]
  rfl

end Invariant

/-- The source does not fail, and it is at its end when the scanner is. -/
structure Steady (s : Scanner) : Prop where
  sound : s.source.pending = none
  ended : s.current = none → s.source.rest = []

theorem advance_of_sound {s : Scanner} (h : s.source.pending = none) :
    ∃ s', advance s = .ok () s' ∧ s'.Steady ∧ s'.ahead = s.source.rest := by
  have hd : s.source.dueFault? = none := by simp [Source.dueFault?, h]
  cases hr : s.source.rest with
  | nil =>
    refine ⟨⟨none, s.position.after s.current, s.source⟩, ?_, ⟨h, fun _ => hr⟩, hr⟩
    simp only [advance, Source.read, hd, hr]
  | cons c cs =>
    refine ⟨⟨some c, s.position.after s.current, ⟨cs, s.source.taken + 1, s.source.pending⟩⟩,
      ?_, ⟨h, by simp⟩, rfl⟩
    simp only [advance, Source.read, hd, hr]

variable {s : Scanner}

theorem Steady.advance (hs : s.Steady) :
    ∃ s', Scanner.advance s = .ok () s' ∧ s'.Steady ∧ s'.ahead = s.ahead.drop 1 := by
  obtain ⟨s', ha, hs', he⟩ := advance_of_sound hs.sound
  refine ⟨s', ha, hs', he.trans ?_⟩
  cases hc : s.current with
  | none => simp [ahead, hc, hs.ended hc]
  | some c => simp [ahead, hc]

theorem steady_invariant (n : Nat) : Invariant n fun _ cs s => s.Steady ∧ s.ahead = cs where
  ahead := fun h => h.2
  advance := by
    intro before cs c s h _
    obtain ⟨s', ha, hs', he⟩ := h.1.advance
    exact ⟨s', ha, hs', by rw [he, h.2]; rfl⟩

theorem Steady.next (hs : s.Steady) {l rest : List Char} (ht : trimmed s.ahead = l ++ rest)
    (hl : lexeme (l ++ rest) = l) :
    ∃ start s', Scanner.next s = .ok (Token.ofLexeme start l) s' ∧ s'.Steady ∧
      s'.ahead = rest := by
  obtain ⟨gap, hgap, hsplit⟩ : ∃ gap : List Char, gap.length = triviaLength false s.ahead ∧
      s.ahead = gap ++ (l ++ rest) := by
    refine ⟨s.ahead.take (triviaLength false s.ahead), ?_, ?_⟩
    · rw [List.length_take, Nat.min_eq_left (triviaLength_le false s.ahead)]
    · rw [← ht, trimmed, List.take_append_drop]
  have hn : ([] ++ gap ++ l).length ≤ (gap ++ l).length := Nat.le_refl _
  obtain ⟨s₁, s₂, -, hnext, hs₂, he₂⟩ :=
    (steady_invariant _).next ⟨hs, hsplit⟩ (by rw [← hsplit, hgap]) hl hn
  exact ⟨s₁.position, s₂, hnext, hs₂, he₂⟩

theorem Steady.next_done (hs : s.Steady) (ht : trimmed s.ahead = []) :
    ∃ start s', Scanner.next s = .ok (.endOfInput start) s' := by
  obtain ⟨start, s', hn, -⟩ := hs.next (l := []) (show trimmed s.ahead = [] ++ [] from ht) rfl
  exact ⟨start, s', hn⟩

end Scanner

theorem Divides.length_le {cs : List Char} {ls : List (List Char)} (h : Divides cs ls) :
    ls.length ≤ cs.length := by
  induction h with
  | done => simp
  | @lexeme cs l rest ls ht hne _ _ ih =>
    have hle := length_trimmed_le cs
    have hpos := List.length_pos_iff.2 hne
    rw [ht, List.length_append] at hle
    simp only [List.length_cons]
    omega

def bareTokens (ls : List (List Char)) : List Token := (ls ++ [[]]).map (Token.ofLexeme {})

/-- What is still to be delivered, none of it a fault. -/
inductive Feed.Offers (finish : Finish) : List Delivery → List Token → Prop where
  | finished : Offers finish [] [.endOfInput finish.position]
  | token {t : Token} {n : Nat} {ds : List Delivery} {w : List Token} :
      t.kind ≠ .endOfInput → Offers finish ds w → Offers finish (.token t n :: ds) (t :: w)

theorem Feed.Offers.delivers {finish : Finish} {ds : List Delivery} {w : List Token}
    (h : Offers finish ds w) {f : Feed} (hu : f.upcoming = ds) (hf : f.finish = finish) :
    ∃ f₁, f.advance = .ok () f₁ ∧ f₁.Delivers w := by
  induction h generalizing f with
  | finished => exact hf ▸ ⟨_, advance_of_upcoming_nil hu, .finished hu rfl⟩
  | @token t n ds w hk _ ih =>
    obtain ⟨f₂, ha, hd⟩ := ih (f := ⟨t, n, ds, f.finish⟩) rfl hf
    exact ⟨⟨t, n, ds, f.finish⟩, by simp only [advance, hu], .token hk ha hd⟩

namespace Scanner

theorem Steady.tokensWithin {cs : List Char} {ls : List (List Char)} (h : Divides cs ls)
    {s : Scanner} (hs : s.Steady) (hc : s.ahead = cs) {m n : Nat} (hm : ls.length < m)
    (hn : ls.length < n) :
    ∃ w s', Scanner.tokensWithin m s = .ok w s' ∧ w.map Token.unplaced = bareTokens ls ∧
      Feed.Offers (deliveriesWithin n s).2 (deliveriesWithin n s).1 w := by
  induction h generalizing s m n with
  | done ht =>
    obtain ⟨m, rfl⟩ := Nat.exists_eq_add_one.2 (show 0 < m by omega)
    obtain ⟨n, rfl⟩ := Nat.exists_eq_add_one.2 (show 0 < n by omega)
    obtain ⟨start, s', hnext⟩ := hs.next_done (hc ▸ ht)
    refine ⟨[.endOfInput start], s', ?_, rfl, ?_⟩
    · rw [Scanner.tokensWithin, bind_ok hnext]
      rfl
    · simp only [deliveriesWithin, hnext]
      exact .finished
  | @lexeme cs l rest ls ht hne hl _ ih =>
    obtain ⟨m, rfl⟩ := Nat.exists_eq_add_one.2 (show 0 < m by omega)
    obtain ⟨n, rfl⟩ := Nat.exists_eq_add_one.2 (show 0 < n by omega)
    obtain ⟨start, s₁, hnext, hs₁, hc₁⟩ := hs.next (hc ▸ ht) hl
    simp only [List.length_cons] at hm hn
    obtain ⟨w, s₂, hw, hmap, ho⟩ := ih hs₁ hc₁ (m := m) (n := n) (by omega) (by omega)
    obtain ⟨c, l, rfl⟩ := List.exists_cons_of_ne_nil hne
    have hk := Token.kind_ofLexeme_cons start c l
    refine ⟨Token.ofLexeme start (c :: l) :: w, s₂, ?_, ?_, ?_⟩
    · rw [Scanner.tokensWithin, bind_ok hnext, if_neg hk, bind_ok hw]
      rfl
    · simp only [List.map_cons, hmap, Token.unplaced_ofLexeme, bareTokens, List.cons_append]
    · simp only [deliveriesWithin, hnext, hk, if_false]
      exact .token hk ho

theorem unstarted_advance (text : String) :
    ∃ s, advance (unstarted (.ofText text)) = .ok () s ∧ s.Steady ∧ s.ahead = text.toList :=
  advance_of_sound rfl

end Scanner

theorem lex_ok (text : String) {s : Scanner} {w : List Token} {s' : Scanner}
    (ha : Scanner.advance (.unstarted (.ofText text)) = .ok () s)
    (hw : Scanner.tokensWithin s.scans s = .ok w s') : lex text = w := by
  have hscan : (do Scanner.advance; Scanner.tokens : Scan (List Token))
      (.unstarted (.ofText text)) = .ok w s' := by
    rw [bind_ok ha, Scanner.tokens, Scanner.get_bind, hw]
  rw [lex, Scanner.run'_ok hscan, Option.getD_some]

theorem Divides.lex {text : String} {ls : List (List Char)} (h : Divides text.toList ls) :
    (lex text).map Token.unplaced = bareTokens ls := by
  obtain ⟨s, ha, hs, hc⟩ := Scanner.unstarted_advance text
  have hlt : ls.length < s.scans := by
    have := h.length_le
    simp only [Scanner.scans, hc]
    omega
  obtain ⟨w, s', hw, hmap, -⟩ := hs.tokensWithin h hc hlt hlt
  rw [lex_ok text ha hw, hmap]

theorem Setup.parser_ok {setup : Setup} {g : Grammar} (hg : setup.grammar = .ok g)
    (text : String) :
    ∃ f, setup.parser (.ofText text) = .ok (g, ⟨f, 0⟩) ∧ f.Delivers (lex text) := by
  obtain ⟨ls, h⟩ := exists_divides text.toList
  obtain ⟨s, ha, hs, hc⟩ := Scanner.unstarted_advance text
  have hlt : ls.length < s.scans := by
    have := h.length_le
    simp only [Scanner.scans, hc]
    omega
  obtain ⟨w, s', hw, -, ho⟩ := hs.tokensWithin h hc hlt (n := s.scans + 1) (by omega)
  obtain ⟨f, hf, hd⟩ := ho.delivers (f := Feed.ofScanner s) rfl rfl
  refine ⟨f, ?_, lex_ok text ha hw ▸ hd⟩
  have hstart : Parser.start s = .ok () ⟨f, 0⟩ := by
    simp only [Parser.start, Parser.advance, Parser.unstarted, hf]
  simp only [parser, Scanner.start, ha, hg, hstart]

end Kaleidoscope
