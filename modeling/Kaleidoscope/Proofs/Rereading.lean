import Kaleidoscope.Proofs.Causality
import Kaleidoscope.Proofs.Exits
import Kaleidoscope.Proofs.Walks
import Mathlib.Data.List.Induction

/-! What a failed read does to places. From there on everything is where it would be if the
character at the failure stood in the text twice: in the next column up to the end of its line, or
on the next line if it is a line feed. -/

set_option autoImplicit false

namespace Kaleidoscope

/-- A place, told by a scanner that has counted the character `c` twice; `first` is the place of
this character. -/
def Position.recounted (p : Position) (c : Char) (first : Position) : Position :=
  if c = '\n' then ⟨p.line + 1, p.column⟩
  else if p.line = first.line then ⟨p.line, p.column + 1⟩ else p

def Token.recounted (t : Token) (c : Char) (first : Position) : Token :=
  { t with start := t.start.recounted c first }

namespace Position

theorem behind_twice_newline (before passed : List Char) :
    behind (before ++ ['\n'] ++ '\n' :: passed) =
      (behind (before ++ '\n' :: passed)).recounted '\n' (behind before) := by
  induction passed using List.reverseRecOn with
  | nil =>
    rw [behind_concat, behind_concat]
    simp [recounted, after]
  | append_singleton passed d ih =>
    rw [← List.cons_append, ← List.append_assoc, ← List.append_assoc, behind_concat, ih,
      behind_concat]
    simp only [recounted, after, if_true]
    split <;> rfl

theorem line_le_behind (before passed : List Char) :
    (behind before).line ≤ (behind (before ++ passed)).line := by
  simp only [behind, List.count_append]
  omega

theorem behind_twice {c : Char} (hc : c ≠ '\n') (before passed : List Char) :
    behind (before ++ [c] ++ passed) =
      (behind (before ++ passed)).recounted c (behind before) := by
  induction passed using List.reverseRecOn with
  | nil => simp [behind_concat, recounted, after, hc]
  | append_singleton passed d ih =>
    have hle := line_le_behind before passed
    rw [← List.append_assoc, ← List.append_assoc, behind_concat, ih, behind_concat]
    generalize behind (before ++ passed) = p at hle
    by_cases hd : d = '\n'
    · have hnext : p.line + 1 ≠ (behind before).line := by omega
      by_cases hp : p.line = (behind before).line
      · rw [hp] at hnext
        simp [recounted, after, hc, hd, hp, hnext]
      · simp [recounted, after, hc, hd, hp, hnext]
    · by_cases hp : p.line = (behind before).line <;> simp [recounted, after, hc, hd, hp]

theorem behind_recounted {c : Char} {before passed rest cs : List Char}
    (h : c :: rest = passed ++ cs) (hne : c = '\n' → passed ≠ []) :
    behind (before ++ [c] ++ passed) =
      (behind (before ++ passed)).recounted c (behind before) := by
  by_cases hc : c = '\n'
  · subst hc
    obtain ⟨d, passed, rfl⟩ := List.exists_cons_of_ne_nil (hne rfl)
    cases h
    exact behind_twice_newline before passed
  · exact behind_twice hc before passed

end Position

theorem Reads.recounted {tail l : List Char} {t : Token} (h : Reads tail l t) (c : Char)
    (first : Position) : Reads tail l (t.recounted c first) := by
  cases h with
  | word hc hcs ht hk => exact .word hc hcs ht hk
  | number hc hcs ht hv => exact .number hc hcs ht hv
  | symbol ha hn hi => exact .symbol ha hn hi

theorem Decomposes.recounted {before passed rest cs : List Char} {c : Char} {w : List Token}
    (h : Decomposes (before ++ passed) cs w) (hc : c :: rest = passed ++ cs) :
    Decomposes (before ++ [c] ++ passed) cs (w.map (·.recounted c (.behind before))) := by
  generalize hb : before ++ passed = start at h
  induction h generalizing passed with
  | @finished start gap hg =>
    subst hb
    have hne : c = '\n' → passed ++ gap ≠ [] := fun _ => by simp [← hc]
    have hsplit : c :: rest = passed ++ gap ++ [] := by rw [hc, List.append_nil]
    have hend : Decomposes (before ++ [c] ++ passed) gap _ := .finished hg
    rw [List.append_assoc (before ++ [c]), Position.behind_recounted hsplit hne,
      ← List.append_assoc] at hend
    exact hend
  | @token start gap l rest' t w hg hr hs _ ih =>
    subst hb
    have hne : c = '\n' → passed ++ gap ≠ [] := by
      rintro rfl hnil
      rw [← List.append_assoc, hnil, List.nil_append] at hc
      have hink := hr.startsWithInk '\n' (by rw [← hc]; rfl)
      exact absurd hink (by decide)
    have hsplit : c :: rest = passed ++ gap ++ (l ++ rest') := by rw [hc, List.append_assoc]
    have hrest : Decomposes (before ++ [c] ++ (passed ++ gap ++ l)) rest' _ :=
      ih (by rw [hc]; simp) (by simp)
    refine .token hg (hr.recounted c _) ?_ ?_
    · show t.start.recounted c (.behind before) = _
      rw [hs, List.append_assoc before, ← Position.behind_recounted hsplit hne,
        List.append_assoc (before ++ [c])]
    · simpa using hrest

namespace Scanner

/-- The scanner behind the failure of the read that comes when `n` characters have been taken. -/
def faltered (text : List Char) (n : Nat) : Scanner :=
  ⟨text[n - 1]?, .behind (text.take n), ⟨text.drop n, n, none⟩⟩

/-- The source fails when `n` characters have been taken, and the scanner is on a character in front
of the failure. -/
structure Nears (text : List Char) (n : Nat) (f : Fault) (before cs : List Char) (s : Scanner) :
    Prop where
  poised : s.Poised (some ⟨n, f⟩) before cs
  text_eq : text = before ++ cs
  low : before.length < n
  le : n ≤ text.length

variable {text before cs : List Char} {n : Nat} {f : Fault} {s s₁ t d : Scanner}

theorem Alike.of_ahead (h : s.ahead = t.ahead) (hp : s.position = t.position)
    (hs : s.current = none → s.source.rest = []) (ht : t.Steady) : s.Alike t := by
  unfold ahead at h
  cases hc : s.current with
  | none =>
    cases hc' : t.current with
    | none => exact ⟨by rw [hc, hc'], hp, by rw [hs hc, ht.ended hc'], ht.sound⟩
    | some c => simp [hc, hc', hs hc] at h
  | some c =>
    cases hc' : t.current with
    | none => simp [hc, hc', ht.ended hc'] at h
    | some c' =>
      rw [hc, hc'] at h
      obtain ⟨he, hr⟩ := List.cons.inj h
      exact ⟨by rw [hc, hc', he], hp, hr, ht.sound⟩

theorem standsBehind_faltered (hn : 0 < n) (hle : n ≤ text.length) :
    (faltered text n).StandsBehind (text.take n) ∧
      (faltered text n).ahead = text.drop (n - 1) := by
  have hlt : n - 1 < text.length := by omega
  have hget : text[n - 1]? = some text[n - 1] := List.getElem?_eq_getElem hlt
  refine ⟨⟨⟨rfl, fun hc => ?_⟩, rfl⟩, ?_⟩
  · rw [faltered, hget] at hc
    cases hc
  · rw [ahead, faltered, hget, List.drop_eq_getElem_cons hlt, Nat.sub_add_cancel hn]
    rfl

theorem Nears.exists_cons (h : s.Nears text n f before cs) : ∃ c rest, cs = c :: rest := by
  refine List.exists_cons_of_ne_nil fun hnil => ?_
  have hle := h.le
  rw [h.text_eq, hnil, List.append_nil] at hle
  exact absurd h.low (Nat.not_lt.2 hle)

theorem Nears.dueFault?_eq_some_iff {e : Fault} (h : s.Nears text n f before cs) :
    s.source.dueFault? = some e ↔ n = before.length + 1 ∧ e = f := by
  obtain ⟨c, rest, rfl⟩ := h.exists_cons
  obtain ⟨-, -, htaken⟩ := h.poised.cons
  rw [Source.dueFault?_eq_some_iff h.poised.pending, htaken]
  simp [eq_comm]

theorem Nears.advance (h : s.Nears text n f before cs) (ha : Scanner.advance s = .ok () s₁) :
    ∃ c rest, cs = c :: rest ∧ s₁.Nears text n f (before ++ [c]) rest := by
  obtain ⟨c, rest, rfl⟩ := h.exists_cons
  have hne : n ≠ before.length + 1 := by
    intro hn
    have hdue := h.dueFault?_eq_some_iff.2 ⟨hn, rfl⟩
    rw [(pending_of_advance ha).1] at hdue
    cases hdue
  have hlow : before.length + 1 < n := Nat.lt_of_le_of_ne h.low hne.symm
  obtain ⟨s', ha', hs'⟩ := h.poised.advance (.of_lt hlow f)
  rw [ha] at ha'
  cases ha'
  exact ⟨c, rest, rfl, hs', by simp [h.text_eq], by simpa using hlow, h.le⟩

theorem Nears.of_reaches (hs : s.Nears text n f before cs) (h : s.Reaches s₁) :
    ∃ passed rest, cs = passed ++ rest ∧ s₁.Nears text n f (before ++ passed) rest := by
  induction h generalizing before cs with
  | here => exact ⟨[], cs, rfl, by rwa [List.append_nil]⟩
  | step ha _ ih =>
    obtain ⟨c, cs, rfl, hs'⟩ := hs.advance ha
    obtain ⟨passed, rest, rfl, h₁⟩ := ih hs'
    exact ⟨c :: passed, rest, rfl, by simpa using h₁⟩

theorem Nears.slipped_eq {e : Fault} (hs : s.Nears text n f before cs) (h : s.Reaches s₁)
    (hdue : s₁.source.dueFault? = some e) : e = f ∧ s₁.slipped = faltered text n := by
  obtain ⟨passed, rest, rfl, h₁⟩ := hs.of_reaches h
  obtain ⟨c, rest, rfl⟩ := h₁.exists_cons
  obtain ⟨hc, hr, htaken⟩ := h₁.poised.cons
  obtain ⟨rfl, rfl⟩ := h₁.dueFault?_eq_some_iff.1 hdue
  refine ⟨rfl, ?_⟩
  have htext : text = before ++ passed ++ [c] ++ rest := by simp [hs.text_eq]
  have hlen : (before ++ passed ++ [c]).length = (before ++ passed).length + 1 :=
    List.length_append
  have htake : (before ++ passed ++ [c] ++ rest).take _ = _ := List.take_left' hlen
  have hdrop : (before ++ passed ++ [c] ++ rest).drop _ = _ := List.drop_left' hlen
  have hget : (before ++ passed ++ [c] ++ rest)[(before ++ passed).length]? = some c := by simp
  rw [slipped, faltered, htext, htake, hdrop, Nat.add_sub_cancel, hget, hc, hr, htaken,
    h₁.poised.position, Position.behind_concat]

/-- Demands are met as if the source did not fail, up to the one that meets the failure. From there
on they are met as by a scanner that is like the one behind the failure. -/
theorem Nears.sights (hs : s.Nears text n f before cs) (ha : s.Alike t)
    (hd : (faltered text n).Alike d) (ds : List Demand) :
    Scanner.sights ds s = Scanner.sights ds t ∨
      ∃ ds₁ demand ds₂, ds = ds₁ ++ demand :: ds₂ ∧
        Scanner.sights ds s = Scanner.sights ds₁ t ++
          ⟨.error f, text[n - 1]?, .behind (text.take n)⟩ :: Scanner.sights ds₂ d := by
  induction ds generalizing s t before cs with
  | nil => exact .inl rfl
  | cons demand ds ih =>
    have hleaves := demand.walks_scan.leaves s
    cases hx : demand.scan s with
    | ok a s' =>
      rw [hx] at hleaves
      cases hleaves with
      | result hr =>
        obtain ⟨passed, rest, rfl, hs'⟩ := hs.of_reaches hr
        obtain ⟨t', hx', ha'⟩ := demand.walks_scan.alike ha hx
        rw [sights_ok hx, sights_ok hx', ha'.current, ha'.position]
        rcases ih hs' ha' with he | ⟨ds₁, e, ds₂, rfl, he⟩
        · exact .inl (by rw [he])
        · refine .inr ⟨demand :: ds₁, e, ds₂, rfl, ?_⟩
          rw [he, sights_ok hx', List.cons_append]
    | error e s' =>
      rw [hx] at hleaves
      cases hleaves with
      | fault hr hdue =>
        obtain ⟨rfl, hslipped⟩ := hs.slipped_eq hr hdue
        refine .inr ⟨[], demand, ds, rfl, ?_⟩
        rw [hslipped] at hx
        rw [sights_error hx, hd.sights_eq rfl]
        rfl

theorem exists_alike_faltered (text : List Char) (hle : n ≤ text.length) :
    ∃ d₀ d, Scanner.start (.ofText (String.ofList (text.take n ++ text.drop (n - 1)))) = .ok () d₀ ∧
      advanceBy n d₀ = .ok () d ∧ d.StandsBehind (text.take n) ∧ d.ahead = text.drop (n - 1) := by
  obtain ⟨d₀, hd₀, hp⟩ :=
    Setup.poised_start (String.ofList (text.take n ++ text.drop (n - 1))) none (by simp)
  rw [String.toList_ofList] at hp
  have hstands : d₀.StandsBehind [] := ⟨⟨hp.pending, hp.ended⟩, hp.position⟩
  obtain ⟨d, hd, hd', he⟩ :=
    (standsBehind_invariant _).advanceBy ⟨hstands, hp.ahead⟩ (Nat.le_refl _)
  rw [List.length_take, Nat.min_eq_left hle] at hd
  exact ⟨d₀, d, hd₀, hd, hd', he⟩

theorem StandsBehind.tokens {w : List Token} (hd : Decomposes before cs w)
    (hs : s.StandsBehind before) (he : s.ahead = cs) :
    ∃ s', Scanner.tokens s = .ok w s' ∧ s'.ahead = [] := by
  have hscans : w.length ≤ s.scans := by
    rw [scans, he]
    exact hd.length_le
  obtain ⟨s', hw, -, he'⟩ := hs.tokensWithin hd he hscans
  exact ⟨s', by rw [Scanner.tokens, get_bind, hw], he'⟩

theorem StandsBehind.offers {w : List Token} (hd : Decomposes before cs w)
    (hs : s.StandsBehind before) (he : s.ahead = cs) {k : Nat} (hk : w.length ≤ k) :
    Feed.Offers (deliveriesWithin k s).2 (deliveriesWithin k s).1 w := by
  induction hd generalizing s k with
  | @finished before gap hg =>
    obtain ⟨k, rfl⟩ := Nat.exists_eq_add_one.2 (show 0 < k by simp at hk; omega)
    have hlen := hg.triviaLength_eq (by simp [StartsWithInk])
    rw [List.append_nil] at hlen
    have hahead : s.ahead = gap ++ ([] ++ []) := by simp [he]
    obtain ⟨s', hnext, -⟩ := hs.next (he ▸ hlen) hahead rfl
    simp only [deliveriesWithin, hnext]
    exact .finished
  | @token before gap l rest t w hg hr hstart _ ih =>
    obtain ⟨k, rfl⟩ := Nat.exists_eq_add_one.2 (show 0 < k by simp at hk; omega)
    have hlen := hg.triviaLength_eq hr.startsWithInk
    obtain ⟨s', hnext, hs', he'⟩ := hs.next (he ▸ hlen) he hr.lexeme_eq
    rw [← hstart, ← hr.eq_ofLexeme] at hnext
    simp only [List.length_cons] at hk
    simp only [deliveriesWithin, hnext, hr.kind_ne, if_false]
    exact .token hr.kind_ne (ih hs' he' (by omega))

end Scanner

namespace Feed

/-- What is to be delivered: tokens of the text that end before the failure, the fault, and then
the tokens `w`. -/
inductive Falters (text : List Char) (n : Nat) (f : Fault) (w : List Token) (finish : Finish) :
    List Delivery → Prop where
  | token {t : Token} {k m : Nat} {ds : List Delivery} : t.EndsAt text k → k < n →
      Falters text n f w finish ds → Falters text n f w finish (.token t m :: ds)
  | fault {m : Nat} {ds : List Delivery} : Offers finish ds w →
      Falters text n f w finish (.fault f m :: ds)

/-- Every token that comes is one of the text that ends before the failure, or comes behind the
failure and is one of `w`. -/
inductive Rereads (text : List Char) (n : Nat) (f : Fault) (w : List Token) (feed : Feed) :
    Prop where
  | ahead {k : Nat} : feed.current.EndsAt text k → k < n →
      Falters text n f w feed.finish feed.upcoming → Rereads text n f w feed
  | behind {v : List Token} : v <:+ w → Offers feed.finish feed.upcoming v →
      (feed.current ∈ w ∨ ∃ k < n, feed.current.EndsAt text k) → Rereads text n f w feed

variable {text : List Char} {n : Nat} {f : Fault} {w : List Token} {feed : Feed}

theorem Falters.advance (h : Falters text n f w feed.finish feed.upcoming) :
    (∃ feed', feed.advance = .ok () feed' ∧ feed'.Rereads text n f w) ∨
      ∃ feed', feed.advance = .error f feed' ∧ feed'.current = feed.current ∧
        Offers feed'.finish feed'.upcoming w := by
  obtain ⟨current, taken, upcoming, finish⟩ := feed
  cases h with
  | token ht hk hds => exact .inl ⟨_, rfl, .ahead ht hk hds⟩
  | fault ho => exact .inr ⟨_, rfl, rfl, ho⟩

theorem Rereads.advance (h : feed.Rereads text n f w) :
    (endState feed.advance).Rereads text n f w := by
  cases h with
  | @ahead k hc hk hf =>
    rcases hf.advance with ⟨feed', ha, hr⟩ | ⟨feed', ha, hcurrent, ho⟩
    · rw [ha]
      exact hr
    · rw [ha]
      rw [← hcurrent] at hc
      exact .behind List.suffix_rfl ho (.inr ⟨k, hk, hc⟩)
  | @behind v hv ho _ =>
    obtain ⟨current, taken, upcoming, finish⟩ := feed
    cases ho with
    | finished => exact .behind hv .finished (.inl (hv.subset (List.mem_singleton_self _)))
    | token hk ho =>
      have htail := (List.suffix_cons _ _).trans hv
      exact .behind htail ho (.inl (hv.subset List.mem_cons_self))

end Feed

namespace Scanner

variable {text before cs : List Char} {n k : Nat} {f : Fault} {s : Scanner} {v w : List Token}

theorem Nears.falters_first (hs : s.Nears text n f before cs)
    (hreach : n ≤ before.length + reach cs)
    (hw : Decomposes (text.take n) (text.drop (n - 1)) w) (hk : cs.length < k) :
    Feed.Falters text n f w (Scanner.deliveriesWithin (k + 1) s).2
      (Scanner.deliveriesWithin (k + 1) s).1 := by
  obtain ⟨s', hnext⟩ := hs.poised.next_fault hs.low hreach
  have hleaves := walks_next.leaves s
  rw [hnext] at hleaves
  cases hleaves with
  | fault hr hdue =>
    obtain ⟨-, hslipped⟩ := hs.slipped_eq hr hdue
    obtain ⟨hstands, hahead⟩ := standsBehind_faltered (Nat.zero_lt_of_lt hs.low) hs.le
    have hlow := hs.low
    have hlen := hw.length_le
    rw [List.length_drop, hs.text_eq, List.length_append] at hlen
    rw [hslipped] at hnext
    simp only [Scanner.deliveriesWithin, hnext]
    exact .fault (hstands.offers hw hahead (by omega))

theorem Nears.falters (hd : Decomposes before cs v) (hs : s.Nears text n f before cs)
    (hw : Decomposes (text.take n) (text.drop (n - 1)) w) (hk : cs.length < k) :
    Feed.Falters text n f w (Scanner.deliveriesWithin (k + 1) s).2
      (Scanner.deliveriesWithin (k + 1) s).1 := by
  induction hd generalizing s k with
  | @finished before gap hg =>
    refine hs.falters_first ?_ hw hk
    rw [reach_of_trivia hg, ← List.length_append, ← hs.text_eq]
    exact hs.le
  | @token before gap l rest t v hg hr hstart _ ih =>
    by_cases hn : (before ++ gap ++ l).length < n
    · obtain ⟨s', hnext, hs'⟩ := hs.poised.next_reads hg hr hstart (.of_lt hn f)
      have htext : text = before ++ gap ++ l ++ rest := by simp [hs.text_eq]
      have hpos := List.length_pos_iff.2 hr.isLexeme.ne_nil
      simp only [List.length_append] at hk
      obtain ⟨k, rfl⟩ := Nat.exists_eq_add_one.2 (show 0 < k by omega)
      have hends : t.EndsAt text (before ++ gap ++ l).length := .lexeme (by simp [htext]) hr hstart
      rw [Scanner.deliveriesWithin, hnext]
      simp only [hr.kind_ne, if_false]
      exact .token hends hn (ih ⟨hs', htext, hn, hs.le⟩ (by omega))
    · refine hs.falters_first ?_ hw hk
      rw [reach_of_reads hg hr]
      simp only [List.length_append] at hn ⊢
      omega

end Scanner

/-- Whatever is asked of a parser whose source fails once, the tokens that come are those that end
before the failure, and behind it those of the text from the failing character on. -/
theorem Setup.rereads {setup : Setup} {g : Grammar} {p : Parser} {text : String} {n : Nat}
    {f : Fault} {w : List Token} (hn : 0 < n) (hle : n ≤ text.toList.length)
    (hw : Decomposes (text.toList.take n) (text.toList.drop (n - 1)) w)
    (hp : setup.parser { Source.ofText text with pending := some ⟨n, f⟩ } = .ok (g, p))
    (ops : List Operation) :
    (Operation.performAll ops g p).2.feed.Rereads text.toList n f w := by
  have hstart : p.feed.Rereads text.toList n f w := by
    obtain ⟨s, hs, hpoised⟩ := poised_start text (some ⟨n, f⟩) (by simp; omega)
    have hscans : text.toList.length < s.scans := by
      rw [Scanner.scans, hpoised.ahead]
      omega
    have hnears : s.Nears text.toList n f [] text.toList := ⟨hpoised, rfl, hn, hle⟩
    have hfalters : Feed.Falters text.toList n f w (Feed.ofScanner s).finish
        (Feed.ofScanner s).upcoming := hnears.falters (decomposes_lex text) hw hscans
    cases hg : setup.grammar with
    | error e =>
      simp only [parser, hs, hg] at hp
      cases hp
    | ok g =>
      rcases hfalters.advance with ⟨feed, ha, hr⟩ | ⟨feed, ha, -⟩
      · rw [parser_of_advance hg hs ha] at hp
        cases hp
        exact hr
      · simp only [parser, hs, hg, Parser.start, Parser.advance, Parser.unstarted, ha] at hp
        cases hp
  exact (Operation.leads_performAll ops g p).keeps (fun _ h => h.advance) hstart

theorem Scanner.Nears.tokens_fault {text before cs : List Char} {n : Nat} {f : Fault}
    {s t : Scanner} {w : List Token} (hs : s.Nears text n f before cs)
    (hw : Decomposes before cs w) (hb : t.StandsBehind before) (he : t.ahead = cs) :
    Scanner.tokens s = .error f (faltered text n) := by
  have hleaves := walks_tokens.leaves s
  cases hx : Scanner.tokens s with
  | error e s' =>
    rw [hx] at hleaves
    cases hleaves with
    | fault hr hdue =>
      obtain ⟨rfl, hslipped⟩ := hs.slipped_eq hr hdue
      rw [hslipped]
  | ok a s' =>
    rw [hx] at hleaves
    cases hleaves with
    | result hr =>
      obtain ⟨passed, rest, rfl, hs'⟩ := hs.of_reaches hr
      have ha : s.Alike t := .of_ahead (by rw [hs.poised.ahead, he])
        (by rw [hs.poised.position, hb.position]) hs.poised.ended hb.steady
      obtain ⟨t', hx', ha'⟩ := walks_tokens.alike ha hx
      obtain ⟨t'', hx'', he''⟩ := hb.tokens hw he
      rw [hx'] at hx''
      cases hx''
      have hrest : rest = [] := by rw [← hs'.poised.ahead, ha'.ahead_eq, he'']
      obtain ⟨c, cs, hcons⟩ := hs'.exists_cons
      rw [hrest] at hcons
      cases hcons

/-- A source that fails once. Where the read fails that comes when `n` characters have been taken,
the last of them stays current, but the position is the one behind it already, so from there on a
scanner does what it does on a text in which this character stands twice: its tokens are in the next
column up to the end of the line, or on the next line if the character is a line feed. The same
holds of the tokens that come to a parser, whatever it has been asked for, and whether the failure
was passed on or came to a result. -/
theorem Source.reread (text : String) (n : Nat) (f : Fault) (hn : 0 < n)
    (hle : n ≤ text.toList.length) :
    let cs := text.toList
    let failing : Source := { Source.ofText text with pending := some ⟨n, f⟩ }
    let twice := String.ofList (cs.take n ++ cs.drop (n - 1))
    ∃ s t d₀ d c w, Scanner.start failing = .ok () s ∧ Scanner.start (.ofText text) = .ok () t ∧
      Scanner.start (.ofText twice) = .ok () d₀ ∧ Scanner.advanceBy n d₀ = .ok () d ∧
      cs[n - 1]? = some c ∧ Decomposes (cs.take (n - 1)) (cs.drop (n - 1)) w ∧
      let place := Position.behind (cs.take (n - 1))
      let reread := w.map (·.recounted c place)
      (∃ s', Scanner.tokens s = .error f s') ∧ (∃ d', Scanner.tokens d = .ok reread d') ∧
      (∀ ds, Scanner.sights ds s = Scanner.sights ds t ∨
        ∃ ds₁ demand ds₂, ds = ds₁ ++ demand :: ds₂ ∧
          Scanner.sights ds s = Scanner.sights ds₁ t ++
            ⟨.error f, some c, place.after (some c)⟩ :: Scanner.sights ds₂ d) ∧
      ∀ setup g p, Setup.parser setup failing = .ok (g, p) → ∀ ops,
        (Operation.performAll ops g p).2.feed.Rereads cs n f reread := by
  intro cs failing twice
  obtain ⟨s, hs, hpoised⟩ := Setup.poised_start text (some ⟨n, f⟩) (by simp; omega)
  obtain ⟨t, ht, hpoised'⟩ := Setup.poised_start text none (by simp)
  obtain ⟨d₀, d, hd₀, hd, hstands, hahead⟩ := Scanner.exists_alike_faltered cs hle
  obtain ⟨hstands', hahead'⟩ := Scanner.standsBehind_faltered hn hle
  have hlt : n - 1 < cs.length := Nat.sub_one_lt_of_le hn hle
  have hget : cs[n - 1]? = some cs[n - 1] := List.getElem?_eq_getElem hlt
  have hdrop : cs.drop (n - 1) = cs[n - 1] :: cs.drop n := by
    rw [List.drop_eq_getElem_cons hlt, Nat.sub_add_cancel hn]
  have htake : cs.take n = cs.take (n - 1) ++ [cs[n - 1]] := by
    rw [List.take_append_getElem hlt, Nat.sub_add_cancel hn]
  obtain ⟨w, hw⟩ := exists_decomposes (cs.take (n - 1)) (cs.drop (n - 1))
  have hreread : Decomposes (cs.take n) (cs.drop (n - 1))
      (w.map (·.recounted cs[n - 1] (.behind (cs.take (n - 1))))) := by
    rw [← List.append_nil (cs.take (n - 1))] at hw
    have h := hw.recounted (c := cs[n - 1]) hdrop.symm
    rwa [List.append_nil, ← htake] at h
  have hlike : (Scanner.faltered cs n).Alike d := .of_ahead (by rw [hahead, hahead'])
    (by rw [hstands.position, hstands'.position]) hstands'.steady.ended hstands.steady
  have hbegin : t.StandsBehind [] := ⟨⟨hpoised'.pending, hpoised'.ended⟩, hpoised'.position⟩
  have hplace : Position.behind (cs.take n) =
      (Position.behind (cs.take (n - 1))).after (some cs[n - 1]) := by
    rw [htake, Position.behind_concat]
  obtain ⟨d', hd', -⟩ := hstands.tokens hreread hahead
  have hnears : s.Nears cs n f [] cs := ⟨hpoised, rfl, hn, hle⟩
  refine ⟨s, t, d₀, d, cs[n - 1], w, hs, ht, hd₀, hd, hget, hw,
    ⟨_, hnears.tokens_fault (decomposes_lex text) hbegin hpoised'.ahead⟩,
    ⟨d', hd'⟩, fun ds => ?_, fun setup g p hp ops => ?_⟩
  · have ha : s.Alike t := .of_ahead (by rw [hpoised.ahead, hpoised'.ahead])
      (by rw [hpoised.position, hpoised'.position]) hpoised.ended hbegin.steady
    rw [← hplace, ← hget]
    exact hnears.sights ha hlike ds
  · exact Setup.rereads hn hle hreread hp ops

theorem Source.reread_name :
    let text := "f ab"
    let failing : Source := { Source.ofText text with pending := some ⟨3, .exhausted⟩ }
    0 < 3 ∧ 3 ≤ text.toList.length ∧ ∃ g p w, ({} : Setup).parser failing = .ok (g, p) ∧
      Decomposes ['f', ' '] ['a', 'b'] w ∧
      (Operation.performAll [.attempt .expression, .advance] g p).2.feed.current =
        ⟨.identifier, .text "ab", ⟨1, 4⟩, "ab"⟩ ∧
      ∀ ops, (Operation.performAll ops g p).2.feed.Rereads text.toList 3 .exhausted
        (w.map (·.recounted 'a' ⟨1, 3⟩)) := by
  intro text failing
  obtain ⟨s, t, d₀, d, c, w, -, -, -, -, hc, hw, -, -, -, hparser⟩ :=
    Source.reread text 3 .exhausted (by decide) (by decide)
  have htext : text.toList = ['f', ' ', 'a', 'b'] := by decide
  have hplace : Position.behind (['f', ' ', 'a', 'b'].take (3 - 1)) = ⟨1, 3⟩ := by decide
  rw [htext] at hc hw
  cases hc
  rw [htext, hplace, ← htext] at hparser
  have hrun : (match ({} : Setup).parser failing with
      | .ok (g, p) =>
        decide ((Operation.performAll [.attempt .expression, .advance] g p).2.feed.current =
          ⟨.identifier, .text "ab", ⟨1, 4⟩, "ab"⟩)
      | .error _ => false) = true := by decide +kernel
  split at hrun
  · next g p hp =>
    have hcurrent := of_decide_eq_true hrun
    exact ⟨by decide, by decide, g, p, w, hp, hw, hcurrent, hparser {} g p hp⟩
  · cases hrun

/-- A failed read moves the position, and the next token is told one column too far. -/
theorem position_of_failed_advance :
    let failing : Source := { Source.ofText "ab" with pending := some ⟨1, .exhausted⟩ }
    ∃ s s' s'' t, Scanner.start failing = .ok () s ∧ Scanner.advance s = .error .exhausted s' ∧
      s'.current = s.current ∧ s'.position ≠ s.position ∧
      Scanner.next s' = .ok t s'' ∧ t.text = "ab" ∧ t ∉ lex "ab" := by
  refine ⟨_, _, _, _, rfl, rfl, rfl, by decide, rfl, rfl, by decide +kernel⟩

end Kaleidoscope
