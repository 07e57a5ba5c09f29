import Kaleidoscope.Proofs.Building
import Kaleidoscope.Proofs.Interruption
import Kaleidoscope.Proofs.Tracking

/-! What happens while a text is read depends on what has been read by then. At every event the
source has been read one character past the token that the parser stands on and no further, so what
happens before the source is asked for another character is settled by the characters before it. -/

set_option autoImplicit false

namespace Kaleidoscope

/-- What a caller sees of an event: the outcome, or that a separator was passed. -/
def Event.seen : Event → Option Outcome
  | .separator _ => none
  | .outcome o _ => some o

/-- What happens on a text before the source is asked for more than `n` characters. It is what
happens if the source is interrupted there. -/
def Setup.happenedBy (setup : Setup) (n : Nat) (text : String) : List (Option Outcome) :=
  match setup.run { Source.ofText text with pending := some ⟨n, .interrupted⟩ } with
  | .ok run => run.events.map Event.seen
  | .error _ => []

/-- Where the parser stands at each event: at a separator on the semicolon, at an outcome on the
token behind the share of the tokens that it takes. -/
inductive StandsOn : List Event → List (List Token) → List Token → Prop where
  | finished {t : Token} : StandsOn [] [] [t]
  | separator {p : Parser} {es : List Event} {us : List (List Token)} {rest : List Token} :
      StandsOn es us rest →
      StandsOn (.separator p :: es) ([p.feed.current] :: us) (p.feed.current :: rest)
  | outcome {o : Outcome} {p : Parser} {u : List Token} {es : List Event}
      {us : List (List Token)} {rest : List Token} : StandsOn es us (p.feed.current :: rest) →
      StandsOn (.outcome o p :: es) (u :: us) (u ++ p.feed.current :: rest)

theorem Grammar.AccountsAll.standsOn {g : Grammar} {p r : Parser} {es : List Event}
    {us : List (List Token)} (h : g.AccountsAll p es us r) {w : List Token}
    (hw : p.feed.Delivers w) : StandsOn es us w := by
  induction h generalizing w with
  | finished hs =>
    obtain ⟨place, rfl⟩ := hw.eq_of_finished (Token.kind_of_stage hs)
    exact .finished
  | turn ha _ ih =>
    obtain ⟨v, rfl, hv, -⟩ := ha.delivers hw
    have hrest := ih hv
    obtain ⟨t, v, rfl⟩ := List.exists_cons_of_ne_nil hv.ne_nil
    obtain rfl := hv.current
    cases ha with
    | separator => exact .separator hrest
    | success => exact .outcome hrest
    | failure => exact .outcome hrest
    | failureAtEnd => exact .outcome hrest

namespace Feed

/-- All tokens from the current one on end behind `n` characters or more, and each is at hand when
one character more has been read. -/
structure EndsFrom (text : List Char) (n : Nat) (f : Feed) : Prop where
  current : ∃ k, f.current.EndsAt text k ∧ f.taken = min (k + 1) text.length ∧ n ≤ k
  upcoming : ∀ d ∈ f.upcoming, d.EndsFrom text n
  finish : f.finish = ⟨.behind text, text.length⟩
  le : n ≤ text.length

variable {text : List Char} {n : Nat} {f f' : Feed}

theorem endsFrom_of_advance (hu : ∀ d ∈ f.upcoming, d.EndsFrom text n)
    (hf : f.finish = ⟨.behind text, text.length⟩) (hn : n ≤ text.length) :
    ∃ f₁, f.advance = .ok () f₁ ∧ f₁.EndsFrom text n := by
  obtain ⟨current, taken, upcoming, finish⟩ := f
  simp only at hf hu
  subst hf
  cases upcoming with
  | nil =>
    refine ⟨_, rfl, ⟨text.length, .finish, ?_, hn⟩, hu, rfl, hn⟩
    simp
  | cons d ds =>
    obtain ⟨hd, hds⟩ := List.forall_mem_cons.1 hu
    obtain ⟨t, k, rfl, ht, hk⟩ := hd
    exact ⟨_, rfl, ⟨k, ht, rfl, hk⟩, hds, rfl, hn⟩

theorem EndsFrom.advance (h : f.EndsFrom text n) : (endState f.advance).EndsFrom text n := by
  obtain ⟨f₁, ha, hf₁⟩ := endsFrom_of_advance h.upcoming h.finish h.le
  rw [ha]
  exact hf₁

/-- The feeds stand on the same token, which ends before `n` characters, and the second is
interrupted behind `n` characters. -/
structure CutOff (text : List Char) (n : Nat) (f f' : Feed) : Prop where
  current_eq : f'.current = f.current
  early : ∃ k, f.current.EndsAt text k ∧ k < n
  upcoming : CutAt text n (f.upcoming, f.finish) (f'.upcoming, f'.finish)

theorem CutAt.advance (f f' : Feed)
    (h : CutAt text n (f.upcoming, f.finish) (f'.upcoming, f'.finish)) :
    (∃ f₁ f₁', f.advance = .ok () f₁ ∧ f'.advance = .ok () f₁' ∧ f₁.CutOff text n f₁') ∨
      ∃ f₁ f₁', f.advance = .ok () f₁ ∧ f₁.EndsFrom text n ∧
        f'.advance = .error .interrupted f₁' := by
  obtain ⟨current, taken, upcoming, finish⟩ := f
  obtain ⟨current', taken', upcoming', finish'⟩ := f'
  simp only at h
  cases h with
  | token ht hk hrest => exact .inl ⟨_, _, rfl, rfl, rfl, ⟨_, ht, hk⟩, hrest⟩
  | cut hds hn =>
    obtain ⟨f₁, ha, hf₁⟩ := endsFrom_of_advance
      (f := ⟨current, taken, upcoming, ⟨.behind text, text.length⟩⟩) hds rfl hn
    exact .inr ⟨f₁, _, ha, hf₁, rfl⟩
  | finished hn => exact .inl ⟨_, _, rfl, rfl, rfl, ⟨_, .finish, hn⟩, .finished hn⟩

end Feed

def Accord.interrupted (text : List Char) (n : Nat) : Accord where
  pairs := Feed.CutOff text n
  known _ := True
  past := Feed.EndsFrom text n
  breaks e := e = .fault .interrupted
  current_eq := fun h => h.current_eq
  current_known := fun _ => trivial
  pairs_advance := by
    intro f f' h
    obtain ⟨f₁, f₁', ha, ha', h₁⟩ | ⟨f₁, f₁', ha, h₁, ha'⟩ := h.upcoming.advance f f'
    · rw [ha, ha']
      exact .ok h₁ rfl
    · rw [ha, ha']
      exact .broken h₁ rfl
  past_advance := fun _ h => h.advance

theorem Grammar.ranksAlike_refl (known : Token → Prop) (g : Grammar) : RanksAlike known g g :=
  ⟨rfl, fun _ _ => Iff.rfl, fun _ _ _ _ _ _ => Iff.rfl⟩

theorem Feed.EndsFrom.events {text : List Char} {n : Nat} {f : Feed} (h : f.EndsFrom text n)
    (g : Grammar) (k : Nat) : ∀ e ∈ (g.runWithin k ⟨f, 0⟩).events, e.parser.feed.EndsFrom text n :=
  have honward := fun kind =>
    (Accord.tracked_rule (A := .interrupted text n) (g.ranksAlike_refl _) kind).onward
  have hp : (Accord.interrupted text n).past (Parser.feed ⟨f, 0⟩) := h
  (Accord.past_runWithin (p := ⟨f, 0⟩) honward k hp).1

/-- The events that come before the token that the parser stands on ends behind `n` characters, and
those that come then. -/
structure SplitAt (text : List Char) (n : Nat) (es before after : List Event) : Prop where
  eq : es = before ++ after
  early : ∀ e ∈ before, ∃ k, e.parser.feed.current.EndsAt text k ∧ k < n
  late : ∀ e ∈ after, ∃ k, e.parser.feed.current.EndsAt text k ∧ n ≤ k

namespace SplitAt

variable {text : List Char} {n : Nat} {es before after before' after' : List Event}

theorem length_le (h : SplitAt text n es before after) (h' : SplitAt text n es before' after') :
    before'.length ≤ before.length := by
  refine Nat.le_of_not_lt fun hlt => ?_
  have heq : before ++ after = before' ++ after' := h.eq.symm.trans h'.eq
  obtain ⟨e, es, rfl⟩ : ∃ e es, after = e :: es := by
    refine List.exists_cons_of_ne_nil fun hnil => ?_
    have hlen := congrArg List.length heq
    rw [hnil, List.length_append, List.length_append, List.length_nil] at hlen
    omega
  have hmem : e ∈ before' := by
    have hget : (before' ++ after')[before.length]? = some e := by rw [← heq]; simp
    rw [List.getElem?_append_left hlt] at hget
    exact List.mem_of_getElem? hget
  obtain ⟨k, hk, hlow⟩ := h'.early e hmem
  obtain ⟨k', hk', hhigh⟩ := h.late e List.mem_cons_self
  have := hk.unique hk'
  omega

theorem unique (h : SplitAt text n es before after) (h' : SplitAt text n es before' after') :
    before' = before :=
  (List.append_inj (h'.eq.symm.trans h.eq)
    (Nat.le_antisymm (h.length_le h') (h'.length_le h))).1

end SplitAt

theorem Feed.EndsFrom.splitAt {text : List Char} {n : Nat} {f : Feed} (h : f.EndsFrom text n)
    (g : Grammar) : SplitAt text n (g.run ⟨f, 0⟩).events [] (g.run ⟨f, 0⟩).events := by
  refine ⟨rfl, by simp, fun e he => ?_⟩
  obtain ⟨k, hk, -, hn⟩ := (h.events g _ e he).current
  exact ⟨k, hk, hn⟩

theorem Accord.SameEvent.parser {A : Accord} {e e' : Event} (h : A.SameEvent e e') :
    A.PairsAt e.parser e'.parser := by
  cases h <;> assumption

theorem Accord.SameEvent.seen_eq {A : Accord} {e e' : Event} (h : A.SameEvent e e') :
    e'.seen = e.seen := by
  cases h <;> rfl

theorem Accord.seen_eq {text : List Char} {n : Nat} {es es' : List Event}
    (h : List.Forall₂ (Accord.interrupted text n).SameEvent es es') :
    es'.map Event.seen = es.map Event.seen ∧
      ∀ e ∈ es, ∃ k, e.parser.feed.current.EndsAt text k ∧ k < n := by
  induction h with
  | nil => exact ⟨rfl, by simp⟩
  | cons he _ ih =>
    obtain ⟨hseen, hearly⟩ := ih
    refine ⟨?_, List.forall_mem_cons.2 ⟨Feed.CutOff.early he.parser.1, hearly⟩⟩
    rw [List.map_cons, List.map_cons, he.seen_eq, hseen]

theorem Feed.CutOff.splitAt {text : List Char} {n : Nat} {f f' : Feed} (h : f.CutOff text n f')
    (g : Grammar) : ∃ before after, SplitAt text n (g.run ⟨f, 0⟩).events before after ∧
      List.Forall₂ (Accord.interrupted text n).SameEvent before (g.run ⟨f', 0⟩).events ∧
      ((g.run ⟨f', 0⟩).fault = (g.run ⟨f, 0⟩).fault ∨
        (g.run ⟨f', 0⟩).fault = some .interrupted) := by
  have hbreaks : (Accord.interrupted text n).BreaksOnFaults := by
    intro e he
    exact ⟨.interrupted, he, by simp⟩
  have hpair : (Accord.interrupted text n).PairsAt ⟨f, 0⟩ ⟨f', 0⟩ := ⟨h, rfl⟩
  have hturns : g.run ⟨f, 0⟩ = g.runWithin (f.size + f'.size + 1) ⟨f, 0⟩ :=
    Grammar.runWithin_turns (Nat.lt_succ_self _) (by omega)
  have hturns' : g.run ⟨f', 0⟩ = g.runWithin (f.size + f'.size + 1) ⟨f', 0⟩ :=
    Grammar.runWithin_turns (Nat.lt_succ_self _) (by omega)
  have hrun := Accord.tracksRun_runWithin hbreaks (g.ranksAlike_refl _)
    (f.size + f'.size + 1) hpair
  rw [← hturns, ← hturns'] at hrun
  cases hrun with
  | whole hes hf _ =>
    obtain ⟨-, hearly⟩ := Accord.seen_eq hes
    exact ⟨_, [], ⟨(List.append_nil _).symm, hearly, by simp⟩, hes, .inl hf.symm⟩
  | @broken before after _ hes hsame hafter _ hf hb =>
    obtain ⟨-, hearly⟩ := Accord.seen_eq hsame
    cases hb
    refine ⟨before, after, ⟨hes, hearly, fun e he => ?_⟩, hsame, .inr hf⟩
    obtain ⟨k, hk, -, hn⟩ := (hafter e he).current
    exact ⟨k, hk, hn⟩

namespace Setup

variable {setup : Setup} {g : Grammar}

theorem poised_start (text : String) (pending : Option PendingFault)
    (h : ∀ p ∈ pending, p.after ≠ 0) :
    ∃ s, Scanner.start { Source.ofText text with pending } = .ok () s ∧
      s.Poised pending [] text.toList := by
  have hdue : ({ Source.ofText text with pending } : Source).dueFault? = none := by
    simp only [Source.dueFault?, Source.ofText, Option.map_eq_none_iff, Option.filter_eq_none_iff]
    intro p hp
    simpa using h p hp
  cases ht : text.toList with
  | nil =>
    refine ⟨⟨none, ⟨1, 1⟩, { Source.ofText text with pending }⟩, ?_, ?_⟩
    · simp only [Scanner.start, Scanner.advance, Scanner.unstarted, Source.read, hdue]
      simp [Source.ofText, ht, Position.after]
    · exact ⟨by simp [Scanner.ahead, Source.ofText, ht], rfl, by simp [Source.ofText, ht],
        by simp [Source.ofText], rfl⟩
  | cons c cs =>
    refine ⟨⟨some c, ⟨1, 1⟩, ⟨cs, 1, pending⟩⟩, ?_, ?_⟩
    · simp only [Scanner.start, Scanner.advance, Scanner.unstarted, Source.read, hdue]
      simp [Source.ofText, ht, Position.after]
    · exact ⟨by simp [Scanner.ahead], rfl, by simp, by simp, rfl⟩

theorem parser_of_advance (hg : setup.grammar = .ok g) {source : Source} {s : Scanner}
    (hs : Scanner.start source = .ok () s) {f : Feed}
    (ha : (Feed.ofScanner s).advance = .ok () f) : setup.parser source = .ok (g, ⟨f, 0⟩) := by
  simp only [parser, hs, hg, Parser.start, Parser.advance, Parser.unstarted, ha]

theorem run_eq {source : Source} {f : Feed}
    (h : setup.parser source = .ok (g, ⟨f, 0⟩)) : setup.run source = .ok (g.run ⟨f, 0⟩) := by
  simp only [run, h]
  rfl

theorem happenedBy_of_start {n : Nat} {text : String} {e : Fault} {s : Scanner}
    (h : Scanner.start { Source.ofText text with pending := some ⟨n, .interrupted⟩ } =
      .error e s) : setup.happenedBy n text = [] := by
  simp only [happenedBy, run, parser, h]
  rfl

theorem happenedBy_of_advance (hg : setup.grammar = .ok g) {n : Nat} {text : String}
    {s : Scanner}
    (hs : Scanner.start { Source.ofText text with pending := some ⟨n, .interrupted⟩ } = .ok () s)
    {e : Fault} {f : Feed} (ha : (Feed.ofScanner s).advance = .error e f) :
    setup.happenedBy n text = [] := by
  simp only [happenedBy, run, parser, hs, hg, Parser.start, Parser.advance, Parser.unstarted, ha]
  rfl

theorem happenedBy_eq {n : Nat} {text : String} {f : Feed}
    (h : setup.parser { Source.ofText text with pending := some ⟨n, .interrupted⟩ } =
      .ok (g, ⟨f, 0⟩)) : setup.happenedBy n text = (g.run ⟨f, 0⟩).events.map Event.seen := by
  simp only [happenedBy, run_eq h]

theorem cutAt_start {a b : String} {n : Nat} (hn : 0 < n)
    (h : b.toList.take n = a.toList.take n) :
    ∃ s s', Scanner.start (.ofText a) = .ok () s ∧
      Scanner.start { Source.ofText b with pending := some ⟨n, .interrupted⟩ } = .ok () s' ∧
      Feed.CutAt a.toList n s.deliveries s'.deliveries := by
  obtain ⟨s, hs, hp⟩ := poised_start a none (by simp)
  obtain ⟨s', hs', hp'⟩ := poised_start b (some ⟨n, .interrupted⟩) (by simp; omega)
  have hlen := (decomposes_lex b).length_le
  have hcount : s.ahead.length = a.toList.length := congrArg _ hp.ahead
  have hcount' : s'.ahead.length = b.toList.length := congrArg _ hp'.ahead
  refine ⟨s, s', hs, hs', hp.deliveriesWithin_cut (decomposes_lex b) rfl hn h hp' ?_ ?_⟩
  · rw [Scanner.scans, hcount]
    omega
  · rw [Scanner.scans, hcount']
    omega

theorem endsFrom_zero (hg : setup.grammar = .ok g) {text : String} {f : Feed}
    (hp : setup.parser (.ofText text) = .ok (g, ⟨f, 0⟩)) : f.EndsFrom text.toList 0 := by
  obtain ⟨s, hs, hpoised⟩ := poised_start text none (by simp)
  have hlen := (decomposes_lex text).length_le
  have hcount : s.ahead.length = text.toList.length := congrArg _ hpoised.ahead
  obtain ⟨hds, hfinish⟩ := hpoised.deliveriesWithin (decomposes_lex text) rfl
    (n := s.scans + 1) (by rw [Scanner.scans, hcount]; omega)
  obtain ⟨f₁, ha, hf₁⟩ := Feed.endsFrom_of_advance (f := .ofScanner s)
    (fun d hd => (hds d hd).mono (Nat.zero_le _)) hfinish (Nat.zero_le _)
  have heq := hp.symm.trans (parser_of_advance hg hs ha)
  cases heq
  exact hf₁

/-- What happens on a text before more than `n` characters are asked for is what happens on any
text up to the first event at which more have been read, if the texts agree on `n` characters. -/
theorem splitAt_happenedBy (hg : setup.grammar = .ok g) {a b : String} {n : Nat}
    (h : b.toList.take n = a.toList.take n) {f : Feed}
    (hp : setup.parser (.ofText a) = .ok (g, ⟨f, 0⟩)) :
    ∃ before after, SplitAt a.toList n (g.run ⟨f, 0⟩).events before after ∧
      setup.happenedBy n b = before.map Event.seen := by
  obtain rfl | hn := Nat.eq_zero_or_pos n
  · refine ⟨[], _, (endsFrom_zero hg hp).splitAt g, ?_⟩
    exact happenedBy_of_start (by simp [Scanner.start, Scanner.advance]; rfl)
  obtain ⟨s, s', hs, hs', hcut⟩ := cutAt_start hn h
  obtain ⟨f₁, f₁', ha, ha', hpair⟩ | ⟨f₁, f₁', ha, hends, ha'⟩ :=
    hcut.advance (.ofScanner s) (.ofScanner s')
  · have heq := hp.symm.trans (parser_of_advance hg hs ha)
    cases heq
    rw [happenedBy_eq (parser_of_advance hg hs' ha')]
    obtain ⟨before, after, hsplit, hsame, -⟩ := hpair.splitAt g
    exact ⟨before, after, hsplit, (Accord.seen_eq hsame).1⟩
  · have heq := hp.symm.trans (parser_of_advance hg hs ha)
    cases heq
    exact ⟨[], _, hends.splitAt g, happenedBy_of_advance hg hs' ha'⟩

/-- The source is read one character past the token that the parser stands on, at every event, and
so what happens before more than `n` characters are asked for depends on the first `n` alone. -/
theorem run_causal (setup : Setup) (g : Grammar) (hg : setup.grammar = .ok g) (text : String) :
    ∃ p run us finish, setup.parser (.ofText text) = .ok (g, p) ∧
      setup.run (.ofText text) = .ok run ∧ run.fault = none ∧
      g.AccountsAll p run.events us run.final ∧
      lex text = us.flatten ++ [.endOfInput finish] ∧ StandsOn run.events us (lex text) ∧
      (∀ e ∈ run.events, ∃ k, e.parser.feed.current.EndsAt text.toList k ∧
        e.parser.feed.taken = min (k + 1) text.toList.length) ∧
      ∀ n, (∃ before after, SplitAt text.toList n run.events before after ∧
          setup.happenedBy n text = before.map Event.seen) ∧
        ∀ text' : String, text'.toList.take n = text.toList.take n →
          setup.happenedBy n text' = setup.happenedBy n text := by
  obtain ⟨f, us, finish, hp, hw, hr, hf, hall, hl, -⟩ := run_builds hg text
  refine ⟨⟨f, 0⟩, _, us, finish, hp, hr, hf, hall, hl, hall.standsOn hw, fun e he => ?_,
    fun n => ?_⟩
  · obtain ⟨k, hk, ht, -⟩ := ((endsFrom_zero hg hp).events g _ e he).current
    exact ⟨k, hk, ht⟩
  · obtain ⟨before, after, hsplit, hseen⟩ := splitAt_happenedBy hg (a := text) (n := n) rfl hp
    refine ⟨⟨before, after, hsplit, hseen⟩, fun text' htake => ?_⟩
    obtain ⟨before', after', hsplit', hseen'⟩ := splitAt_happenedBy hg htake hp
    rw [hseen', hsplit.unique hsplit', hseen]

end Setup

theorem run_causal_session :
    let setup : Setup := {}
    setup.grammar = .ok {} ∧
      (setup.happenedBy 3 "a; b").map (Option.map Outcome.kind) = [some .expression, none] ∧
      "a; b".toList.take 3 = "a; )".toList.take 3 ∧
      setup.happenedBy 3 "a; b" = setup.happenedBy 3 "a; )" := by
  intro setup
  obtain ⟨_, _, _, _, _, _, _, _, _, _, _, hcausal⟩ := Setup.run_causal setup {} rfl "a; )"
  exact ⟨rfl, by decide +kernel, by decide, (hcausal 3).2 "a; b" (by decide)⟩

end Kaleidoscope
