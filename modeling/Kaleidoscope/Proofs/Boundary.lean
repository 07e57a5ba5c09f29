import Kaleidoscope.Proofs.Continuation

/-! Where one text ends and another begins. A semicolon on a line of its own keeps them apart: what
happens is what happens on the first, and then what happens on the second. A keyword does so only
if the first text is finished. The token that a broken construct stops at is skipped, so the
keyword is lost, and what was to be a declaration is read without it. -/

set_option autoImplicit false

namespace Kaleidoscope

def Run.separators (run : Run) : Nat := (Event.separatorPlaces 0 run.events).length

/-- The run has the outcomes of the first run and then those of the second, up to positions. -/
def Run.Joins (run first second : Run) : Prop :=
  List.Forall₂ Outcome.Like (Event.outcomes first.events ++ Event.outcomes second.events)
    (Event.outcomes run.events)

theorem Run.joins_of_events {first second run : Run} {es es' : List Event} (p : Option Parser)
    (h : run.events = es ++ (p.toList.map .separator ++ es'))
    (hes : List.Forall₂ Event.Like first.events es)
    (hes' : List.Forall₂ Event.Like second.events es') :
    run.Joins first second ∧
      run.separators = first.separators + second.separators + p.toList.length := by
  have hnone : Event.outcomes (p.toList.map .separator) = [] := by cases p <;> rfl
  have ho : Event.outcomes run.events = Event.outcomes es ++ Event.outcomes es' := by
    rw [h, Event.outcomes_append, Event.outcomes_append, hnone, List.nil_append]
  refine ⟨?_, ?_⟩
  · rw [Joins, ho]
    exact List.rel_append (Event.Like.outcomes hes) (Event.Like.outcomes hes')
  · have hrun := Event.length_separatorPlaces 0 run.events
    have hfirst := Event.length_separatorPlaces 0 first.events
    have hsecond := Event.length_separatorPlaces 0 second.events
    have hlen := hes.length_eq
    have hlen' := hes'.length_eq
    have hout := (Event.Like.outcomes hes).length_eq
    have hout' := (Event.Like.outcomes hes').length_eq
    rw [ho, h] at hrun
    simp only [List.length_append, List.length_map] at hrun
    simp only [separators, h]
    omega

namespace Grammar

variable {g : Grammar}

theorem stops_of_semicolon (hg : g.precedence.Excludes [';']) {t : Token}
    (h : t.isChar ";" = true) : g.Stops t := by
  have hk := Token.kind_of_isChar h
  have hl := level_of_excludes hg (by simp) h (c := ';') rfl
  refine ⟨hl, by rw [hk]; decide, by rw [hk]; decide, ?_⟩
  intro s hs
  obtain rfl | rfl | rfl := hs
  · exact Token.isChar_eq_false h (by decide)
  · exact Token.isChar_eq_false h (by decide)
  · exact Token.isChar_eq_false h (by decide)

theorem stops_of_keyword {t : Token} (h : t.kind = .define ∨ t.kind = .external) :
    g.Stops t := by
  obtain h | h := h <;> exact stops_of_kind (by simp [h]) (by simp [h]) (by simp [h])

end Grammar

theorem Feed.Holds.isChar_semicolon {f : Feed} {ls : List (List Char)}
    (h : f.Holds ([';'] :: ls)) : f.current.isChar ";" = true :=
  Token.isChar_of_unplaced h.tail.1 (by decide)

/-- A semicolon behind a line feed is a hard boundary, whatever stands in front of it. It is passed
as a separator, unless the construct in front of it breaks off there and takes it along. -/
theorem Setup.run_semicolon (setup : Setup) (g : Grammar) (hg : setup.grammar = .ok g)
    (hx : g.precedence.Excludes [';']) (a b : String) :
    ∃ first second run, setup.Runs a first ∧ setup.Runs b second ∧
      setup.Runs (a ++ "\n;" ++ b) run ∧ run.Joins first second ∧
      run.separators =
        first.separators + second.separators + if first.breaksOff then 0 else 1 := by
  obtain ⟨ls, hb⟩ := exists_divides b.toList
  obtain ⟨first, hfirst⟩ := exists_runs hg a
  obtain ⟨second, hsecond⟩ := exists_runs hg b
  have htail : Divides (';' :: b.toList) ([';'] :: ls) := divides_mark (by decide) hb
  have htext : (a ++ "\n;" ++ b).toList = a.toList ++ '\n' :: ';' :: b.toList := by simp
  obtain ⟨run, es, j, f, hrun, he, hj, hes, hf⟩ :=
    runs_line hg htext htail
      (fun f hf => Grammar.stops_of_semicolon hx hf.isChar_semicolon) hfirst
  refine ⟨first, second, run, hfirst, hsecond, hrun, ?_⟩
  rw [List.length_cons] at hj
  cases hbreak : first.breaksOff with
  | true =>
    rw [hbreak] at hf
    have hes' := hsecond.like hg hb hf (Nat.lt_of_succ_lt hj)
    exact Run.joins_of_events none he hes hes'
  | false =>
    rw [hbreak] at hf
    obtain ⟨ht, -, f', ha, hf'⟩ := hf.tail
    obtain ⟨j, rfl⟩ := Nat.exists_eq_add_one.2 (show 0 < j by omega)
    have hes' := hsecond.like hg hb hf' (Nat.lt_of_succ_lt_succ hj)
    rw [Grammar.runWithin_separator (Token.stage_of_unplaced ht (by decide)) ha] at he
    exact Run.joins_of_events (some ⟨f, 0⟩) he hes hes'

theorem run_semicolon_unclosed :
    let setup : Setup := {}
    setup.grammar = .ok {} ∧ ({} : Grammar).precedence.Excludes [';'] ∧
      ∃ first second run, setup.Runs "f(1. # ;" first ∧ setup.Runs "extern g()" second ∧
        setup.Runs "f(1. # ;\n;extern g()" run ∧ run.Joins first second ∧
        first.breaksOff = true ∧ run.separators = first.separators + second.separators := by
  intro setup
  have hx : ({} : Grammar).precedence.Excludes [';'] := by decide
  obtain ⟨first, second, run, h₁, h₂, h, hf, hs⟩ :=
    Setup.run_semicolon setup {} rfl hx "f(1. # ;" "extern g()"
  have hbreak : first.breaksOff = true := h₁.eq_of_map Run.breaksOff (by decide +kernel)
  rw [hbreak] at hs
  exact ⟨rfl, hx, first, second, run, h₁, h₂, h, hf, hbreak, hs⟩

def Run.kinds (run : Run) : List ConstructKind := (Event.outcomes run.events).map Outcome.kind

theorem Run.Joins.kinds_eq {first second run : Run} (h : run.Joins first second) :
    first.kinds ++ second.kinds = run.kinds := by
  rw [kinds, kinds, kinds, ← List.map_append]
  exact Outcome.Like.kinds_eq h

theorem head_bareTokens {text : String} {ls : List (List Char)} (h : Divides text.toList ls)
    {t : Token} (ht : t ∈ (lex text).head?) : (bareTokens ls).head? = some t.unplaced := by
  rw [← h.lex, List.head?_map, Option.mem_def.1 ht, Option.map_some]

theorem Grammar.stops_of_holds {g : Grammar} {ls : List (List Char)} {t : Token}
    (ht : (bareTokens ls).head? = some t.unplaced)
    (hk : t.kind = .define ∨ t.kind = .external) {f : Feed} (hf : f.Holds ls) :
    g.Stops f.current := by
  have hc := Option.some.inj (hf.current.symm.trans ht)
  have hkind : f.current.unplaced.kind = t.unplaced.kind := congrArg Token.kind hc
  exact stops_of_keyword (show f.current.unplaced.kind = _ ∨ _ from hkind ▸ hk)

theorem ne_nil_of_keyword {ls : List (List Char)} {t : Token}
    (ht : (bareTokens ls).head? = some t.unplaced)
    (hk : t.kind = .define ∨ t.kind = .external) : ls ≠ [] := by
  intro hnil
  subst hnil
  have hend : t.unplaced.kind = .endOfInput := congrArg Token.kind (Option.some.inj ht).symm
  obtain hk | hk := hk <;> exact absurd (hend.symm.trans hk) (by decide)

/-- A declaration behind a text that is finished is a construct of its own. Behind a text that
breaks off it loses its keyword, and the rest is read as any text with the same tokens. -/
theorem Setup.run_keyword (setup : Setup) (g : Grammar) (hg : setup.grammar = .ok g)
    (a b : String) (hb : ∃ t ∈ (lex b).head?, t.kind = .define ∨ t.kind = .external) :
    ∃ first second run, setup.Runs a first ∧ setup.Runs b second ∧
      setup.Runs (a ++ "\n" ++ b) run ∧
      (first.breaksOff = false → run.Joins first second) ∧
      (first.breaksOff = true → ∀ c : String,
        (lex c).map Token.unplaced = (lex b).tail.map Token.unplaced →
          ∃ third, setup.Runs c third ∧ run.Joins first third) := by
  obtain ⟨t, ht, hk⟩ := hb
  obtain ⟨ls, hls⟩ := exists_divides b.toList
  obtain ⟨first, hfirst⟩ := exists_runs hg a
  obtain ⟨second, hsecond⟩ := exists_runs hg b
  have hhead := head_bareTokens hls ht
  have htext : (a ++ "\n" ++ b).toList = a.toList ++ '\n' :: b.toList := by simp
  obtain ⟨run, es, j, f, hrun, he, hj, hes, hf⟩ :=
    runs_line hg htext hls (fun f hf => Grammar.stops_of_holds hhead hk hf) hfirst
  refine ⟨first, second, run, hfirst, hsecond, hrun, ?_, ?_⟩
  · intro hbreak
    rw [hbreak] at hf
    exact (Run.joins_of_events none he hes (hsecond.like hg hls hf hj)).1
  · intro hbreak c hc
    rw [hbreak, if_pos rfl] at hf
    obtain ⟨third, hthird⟩ := exists_runs hg c
    obtain ⟨ls', hls'⟩ := exists_divides c.toList
    have htokens : bareTokens ls' = bareTokens ls.tail := by
      rw [← hls'.lex, hc, List.map_tail, hls.lex, bareTokens_tail (ne_nil_of_keyword hhead hk)]
    have hlen := congrArg List.length htokens
    simp only [bareTokens, List.length_map, List.length_append, List.length_tail,
      List.length_singleton] at hlen
    have hes' := hthird.like hg hls' (hf.congr htokens.symm) (k := j) (by omega)
    exact ⟨third, hthird, (Run.joins_of_events none he hes hes').1⟩

theorem run_keyword_unfinished :
    let setup : Setup := {}
    setup.grammar = .ok {} ∧
      (∃ t ∈ (lex "extern sin(x)").head?, t.kind = .define ∨ t.kind = .external) ∧
      (∃ first second run, setup.Runs "1 + 2" first ∧ setup.Runs "extern sin(x)" second ∧
        setup.Runs "1 + 2\nextern sin(x)" run ∧ first.breaksOff = false ∧
        run.Joins first second) ∧
      (lex "sin(x)").map Token.unplaced = (lex "extern sin(x)").tail.map Token.unplaced ∧
      ∃ first third run, setup.Runs "1 +" first ∧ setup.Runs "sin(x)" third ∧
        setup.Runs "1 +\nextern sin(x)" run ∧ first.breaksOff = true ∧
        run.Joins first third := by
  intro setup
  have hb : ∃ t ∈ (lex "extern sin(x)").head?, t.kind = .define ∨ t.kind = .external :=
    ⟨⟨.external, .text "extern", ⟨1, 1⟩, "extern"⟩, by decide +kernel, .inr rfl⟩
  have hc : (lex "sin(x)").map Token.unplaced = (lex "extern sin(x)").tail.map Token.unplaced := by
    decide +kernel
  refine ⟨rfl, hb, ?_, hc, ?_⟩
  · obtain ⟨first, second, run, h₁, h₂, h, hj, -⟩ :=
      Setup.run_keyword setup {} rfl "1 + 2" "extern sin(x)" hb
    have hbreak : first.breaksOff = false := h₁.eq_of_map Run.breaksOff (by decide +kernel)
    exact ⟨first, second, run, h₁, h₂, h, hbreak, hj hbreak⟩
  · obtain ⟨first, second, run, h₁, -, h, -, hj⟩ :=
      Setup.run_keyword setup {} rfl "1 +" "extern sin(x)" hb
    have hbreak : first.breaksOff = true := h₁.eq_of_map Run.breaksOff (by decide +kernel)
    obtain ⟨third, h₃, hthird⟩ := hj hbreak "sin(x)" hc
    exact ⟨first, third, run, h₁, h₃, h, hbreak, hthird⟩

/-- A keyword does not keep an unfinished expression and a declaration apart: the expression takes
it along, and the declaration becomes a call. -/
theorem run_keyword_swallowed :
    let setup : Setup := {}
    ∃ first second run, setup.Runs "1 +" first ∧ setup.Runs "extern sin(x)" second ∧
      setup.Runs "1 +\nextern sin(x)" run ∧ ¬ run.Joins first second := by
  intro setup
  have hruns : ∀ text, ∃ run, setup.Runs text run := fun text => Setup.exists_runs rfl text
  obtain ⟨first, h₁⟩ := hruns "1 +"
  obtain ⟨second, h₂⟩ := hruns "extern sin(x)"
  obtain ⟨run, h⟩ := hruns "1 +\nextern sin(x)"
  refine ⟨first, second, run, h₁, h₂, h, fun hf => ?_⟩
  have hfirst : first.kinds = [.expression] := h₁.eq_of_map Run.kinds (by decide +kernel)
  have hsecond : second.kinds = [.external] := h₂.eq_of_map Run.kinds (by decide +kernel)
  have hrun : run.kinds = [.expression, .expression] :=
    h.eq_of_map Run.kinds (by decide +kernel)
  have hkinds := hf.kinds_eq
  rw [hfirst, hsecond, hrun] at hkinds
  exact absurd hkinds (by decide)

end Kaleidoscope
