import Kaleidoscope.Proofs.Causality
import Kaleidoscope.Proofs.Prompting

/-! Sessions that are interrupted. The parser reads its first token while it is set up, and an
interrupt that comes by then fails the session. Any later one ends it as the end of the input
would, and what has been printed by then is what is printed without an interrupt. -/

set_option autoImplicit false

namespace Kaleidoscope

/-- A text whose source is interrupted when it is asked for more than `n` characters. -/
def Source.interrupted (text : String) (n : Nat) : Source :=
  { Source.ofText text with pending := some ⟨n, .interrupted⟩ }

def Print.textOn (channel : Channel) (prints : List Print) : String :=
  String.join ((prints.filter (·.channel = channel)).map (·.text))

theorem Print.textOn_append (channel : Channel) (ps qs : List Print) :
    textOn channel (ps ++ qs) = textOn channel ps ++ textOn channel qs := by
  simp [textOn, String.join_append]

namespace Session

def shown (s : Session) : List Print := s.prints.map (·.print)

def shownOf (style : ReportStyle) (es : List Event) : List Print :=
  (es.flatMap (eventPrints style)).map (·.print)

theorem shownOf_append (style : ReportStyle) (es es' : List Event) :
    shownOf style (es ++ es') = shownOf style es ++ shownOf style es' := by
  rw [shownOf, List.flatMap_append, List.map_append, shownOf, shownOf]

theorem shownOf_eq {A : Accord} (style : ReportStyle) {es es' : List Event}
    (h : List.Forall₂ A.SameEvent es es') : shownOf style es' = shownOf style es := by
  induction h with
  | nil => rfl
  | @cons e e' es es' he _ ih =>
    have hone : shownOf style [e'] = shownOf style [e] := by
      cases he with
      | separator => rfl
      | outcome => simp [shownOf, eventPrints, Function.comp_def]
    have hes : shownOf style (e :: es) = shownOf style [e] ++ shownOf style es :=
      shownOf_append style [e] es
    have hes' : shownOf style (e' :: es') = shownOf style [e'] ++ shownOf style es' :=
      shownOf_append style [e'] es'
    rw [hes, hes', hone, ih]

theorem shown_run {setup : Setup} {source : Source} {run : Run} (style : ReportStyle)
    (hr : setup.run source = .ok run) (hf : run.fault = none ∨ run.fault = some .interrupted) :
    (Session.run setup style source).ending = .finished ∧
      (Session.run setup style source).shown =
        prompt :: shownOf style run.events ++ [farewell] := by
  rw [run_of_ok style hr hf]
  refine ⟨rfl, ?_⟩
  simp [shown, shownOf]

theorem textOn_shown {s whole : Session} {kept lost : List Print}
    (hs : s.shown = kept ++ [farewell]) (hwhole : whole.shown = kept ++ lost ++ [farewell])
    (channel : Channel) :
    ∃ first second, Print.textOn channel whole.shown =
        first ++ second ++ Print.textOn channel [farewell] ∧
      Print.textOn channel s.shown = first ++ Print.textOn channel [farewell] := by
  refine ⟨Print.textOn channel kept, Print.textOn channel lost, ?_, ?_⟩
  · rw [hwhole, Print.textOn_append, Print.textOn_append]
  · rw [hs, Print.textOn_append]

end Session

namespace Feed

variable {s s₁ : Scanner}

theorem advance_ofScanner_ok {t : Token} (h : Scanner.next s = .ok t s₁) :
    ∃ f, (ofScanner s).advance = .ok () f := by
  simp only [ofScanner, Scanner.deliveries, Scanner.deliveriesWithin, h]
  split
  · exact ⟨_, rfl⟩
  · exact ⟨_, rfl⟩

theorem advance_ofScanner_error {e : Fault} (h : Scanner.next s = .error e s₁) :
    ∃ f, (ofScanner s).advance = .error e f := by
  simp only [ofScanner, Scanner.deliveries, Scanner.deliveriesWithin, h]
  exact ⟨_, rfl⟩

end Feed

theorem Scanner.Poised.exists_next {s : Scanner} {text : List Char} {n : Nat} {e : Fault}
    (h : s.Poised (some ⟨n, e⟩) [] text) (hn : reach text < n) :
    ∃ t s₁, Scanner.next s = .ok t s₁ := by
  have hclear := Scanner.Clear.of_lt hn e
  obtain ⟨w, hw⟩ := exists_decomposes [] text
  cases hw with
  | finished hg =>
    rw [reach_of_trivia hg] at hclear
    obtain ⟨s₁, hnext, -⟩ := h.next_end hg (by simpa using hclear)
    exact ⟨_, s₁, hnext⟩
  | token hg hr hstart _ =>
    rw [reach_of_reads hg hr] at hclear
    obtain ⟨s₁, hnext, -⟩ := h.next_reads hg hr hstart (by simpa using hclear)
    exact ⟨_, s₁, hnext⟩

namespace Setup

variable {setup : Setup} {g : Grammar}

theorem parser_cutOff (hg : setup.grammar = .ok g) {text : String} {n : Nat}
    (hn : reach text.toList < n) :
    ∃ f f', setup.parser (.ofText text) = .ok (g, ⟨f, 0⟩) ∧
      setup.parser (.interrupted text n) = .ok (g, ⟨f', 0⟩) ∧ f.CutOff text.toList n f' := by
  have hpos : 0 < n := Nat.zero_lt_of_lt hn
  obtain ⟨s, s', hs, hs', hcut⟩ := cutAt_start (a := text) (b := text) hpos rfl
  obtain ⟨s₁, hs₁, hpoised⟩ := poised_start text (some ⟨n, .interrupted⟩) (by simp; omega)
  cases hs'.symm.trans hs₁
  obtain ⟨t, s₂, hnext⟩ := hpoised.exists_next hn
  obtain ⟨f₂, hok⟩ := Feed.advance_ofScanner_ok hnext
  obtain ⟨f, f', ha, ha', hpair⟩ | ⟨_, _, _, _, herror⟩ :=
    hcut.advance (.ofScanner s) (.ofScanner s')
  · exact ⟨f, f', parser_of_advance hg hs ha, parser_of_advance hg hs' ha', hpair⟩
  · cases hok.symm.trans herror

theorem parser_interrupted (hg : setup.grammar = .ok g) {text : String} {n : Nat}
    (hn : n ≤ reach text.toList) :
    ∃ taken, setup.parser (.interrupted text n) = .error (.fault .interrupted taken) := by
  obtain rfl | hpos := Nat.eq_zero_or_pos n
  · exact ⟨0, rfl⟩
  obtain ⟨s, hs, hpoised⟩ := poised_start text (some ⟨n, .interrupted⟩) (by simp; omega)
  obtain ⟨s₁, hnext⟩ := hpoised.next_fault hpos (by simpa using hn)
  obtain ⟨f, ha⟩ := Feed.advance_ofScanner_error hnext
  have hs' : Scanner.start (.interrupted text n) = .ok () s := hs
  refine ⟨f.taken, ?_⟩
  simp only [parser, hs', hg, Parser.start, Parser.advance, Parser.unstarted, ha]

end Setup

/-- Once the first token has been read, an interrupt behind `n` characters ends a session cleanly.
It shows what has happened before more characters were needed, all of which is shown without the
interrupt as well, and the line feed. Up to there an interrupt fails the session, and nothing is
shown but the first prompt. -/
theorem Session.run_interrupted (setup : Setup) (g : Grammar) (hg : setup.grammar = .ok g)
    (style : ReportStyle) (text : String) (n : Nat) :
    ∃ run, setup.Runs text run ∧ (Session.run setup style (.ofText text)).ending = .finished ∧
      (n ≤ reach text.toList → ∃ taken, Session.run setup style (.interrupted text n) =
        ⟨[⟨prompt, 0⟩], taken, .failed (.fault .interrupted taken)⟩) ∧
      (reach text.toList < n →
        (Session.run setup style (.interrupted text n)).ending = .finished ∧
        (∃ before after, SplitAt text.toList n run.events before after ∧
          (Session.run setup style (.interrupted text n)).shown =
            prompt :: shownOf style before ++ [farewell] ∧
          (Session.run setup style (.ofText text)).shown =
            prompt :: shownOf style before ++ shownOf style after ++ [farewell]) ∧
        ∀ channel, ∃ first second,
          Print.textOn channel (Session.run setup style (.ofText text)).shown =
            first ++ second ++ Print.textOn channel [farewell] ∧
          Print.textOn channel (Session.run setup style (.interrupted text n)).shown =
            first ++ Print.textOn channel [farewell]) := by
  obtain ⟨f, us, finish, hp, -, hrun, hfault, -⟩ := setup.run_builds hg text
  obtain ⟨hend, hshown⟩ := shown_run style hrun (.inl hfault)
  refine ⟨_, ⟨hrun, hfault⟩, hend, fun hn => ?_, fun hn => ?_⟩
  · obtain ⟨taken, herror⟩ := Setup.parser_interrupted hg hn
    refine ⟨taken, ?_⟩
    simp only [Session.run, Setup.run, herror]
    rfl
  · obtain ⟨f₁, f', hp₁, hp', hpair⟩ := Setup.parser_cutOff hg hn
    cases hp.symm.trans hp₁
    obtain ⟨before, after, hsplit, hsame, hfault'⟩ := hpair.splitAt g
    rw [hfault] at hfault'
    obtain ⟨hend', hshown'⟩ := shown_run style (Setup.run_eq hp') hfault'
    rw [shownOf_eq style hsame] at hshown'
    rw [hsplit.eq, shownOf_append, ← List.cons_append] at hshown
    exact ⟨hend', ⟨before, after, hsplit, hshown', hshown⟩, textOn_shown hshown' hshown⟩

theorem run_interrupted_between :
    let setup : Setup := {}
    let cut (n : Nat) := Session.run setup {} (.interrupted "a; b" n)
    setup.grammar = .ok {} ∧ 1 ≤ reach "a; b".toList ∧ reach "a; b".toList < 3 ∧
      (∃ taken, cut 1 =
        ⟨[⟨Session.prompt, 0⟩], taken, .failed (.fault .interrupted taken)⟩) ∧
      (cut 3).ending = .finished ∧
      (∃ kept lost, (cut 3).shown = kept ++ [Session.farewell] ∧
        (Session.run setup {} (.ofText "a; b")).shown = kept ++ lost ++ [Session.farewell]) ∧
      Print.textOn .diagnostics (cut 3).shown =
        "kaleidoscope >>> Parsed a top-level expression\nkaleidoscope >>> \n" := by
  intro setup cut
  have hreach : reach "a; b".toList = 1 := by decide +kernel
  obtain ⟨_, -, -, hfirst, -⟩ := Session.run_interrupted setup {} rfl {} "a; b" 1
  obtain ⟨_, -, -, -, hlater⟩ := Session.run_interrupted setup {} rfl {} "a; b" 3
  obtain ⟨hend, ⟨before, after, -, hcut, hwhole⟩, -⟩ := hlater (by omega)
  exact ⟨rfl, by omega, by omega, hfirst (by omega), hend, ⟨_, _, hcut, hwhole⟩,
    by decide +kernel⟩

/-- Not every interrupt ends a session cleanly: one that comes before the first character is read
fails it. -/
theorem not_finished_interrupted :
    ¬ ∀ (setup : Setup) (g : Grammar), setup.grammar = .ok g →
      ∀ (style : ReportStyle) (text : String) (n : Nat), n ≤ text.length →
        (Session.run setup style (.interrupted text n)).ending = .finished := by
  intro h
  have hone := h {} {} rfl {} "1" 0 (Nat.zero_le _)
  cases hone

end Kaleidoscope
