import Kaleidoscope.Proofs.Continuation

/-! Layout. Comments, and white space between tokens, make no difference to what happens in a text:
it is the same up to positions as in the texts of the tokens with a space between each two. -/

set_option autoImplicit false

namespace Kaleidoscope

/-- The texts of the tokens, with single spaces between them. -/
def respaced (text : String) : String := " ".intercalate ((lex text).dropLast.map Token.text)

/-- The same outcomes up to positions, with separators at the same places. -/
structure Run.Like (run run' : Run) : Prop where
  outcomes : List.Forall₂ Outcome.Like (Event.outcomes run.events) (Event.outcomes run'.events)
  places : Event.separatorPlaces 0 run.events = Event.separatorPlaces 0 run'.events

theorem map_toList_ofList (ls : List (List Char)) :
    (ls.map String.ofList).map String.toList = ls := by
  simp [Function.comp_def]

theorem divides_respaced {text : String} {ls : List (List Char)} (h : Divides text.toList ls) :
    Divides (respaced text).toList ls := by
  have htexts : (lex text).dropLast.map Token.text = ls.map String.ofList := by
    rw [List.map_dropLast, texts_lex h, List.dropLast_concat]
  have hlexemes : ∀ t ∈ ls.map String.ofList, IsLexeme t.toList := by
    intro t ht
    obtain ⟨l, hl, rfl⟩ := List.mem_map.1 ht
    rw [String.toList_ofList]
    exact h.isLexeme l hl
  have hd := prints_spaced hlexemes [] [] breaks_nil divides_nil
  rw [List.append_nil, List.append_nil, map_toList_ofList] at hd
  rwa [respaced, htexts]

theorem divides_of_texts {text text' : String} {ls : List (List Char)}
    (h : Divides text.toList ls) (he : (lex text').map Token.text = (lex text).map Token.text) :
    Divides text'.toList ls := by
  obtain ⟨ls', h'⟩ := exists_divides text'.toList
  rw [texts_lex h, texts_lex h'] at he
  have hls := congrArg (List.map String.toList) (List.append_cancel_right he)
  rw [map_toList_ofList, map_toList_ofList] at hls
  rwa [hls] at h'

theorem Setup.runs_like {setup : Setup} {g : Grammar} (hg : setup.grammar = .ok g)
    {text text' : String} {ls : List (List Char)} (h : Divides text.toList ls)
    (h' : Divides text'.toList ls) {run : Run} (hr : setup.Runs text run) :
    ∃ run', setup.Runs text' run' ∧ run.Like run' := by
  obtain ⟨f, hf, hls⟩ := runs_of_divides hg h'
  have hevents := hr.like hg h hls (Nat.lt_succ_of_le hls.length_le)
  exact ⟨_, hf, Event.Like.outcomes hevents, Event.Like.separatorPlaces hevents 0⟩

/-- A text has the same tokens as the one with single spaces between them, apart from their places,
and runs alike; and so does every text whose tokens have the same texts. -/
theorem Setup.run_respaced (setup : Setup) (g : Grammar) (hg : setup.grammar = .ok g)
    (text : String) :
    (lex (respaced text)).map Token.unplaced = (lex text).map Token.unplaced ∧
      ∃ run, setup.Runs text run ∧
        (∃ run', setup.Runs (respaced text) run' ∧ run.Like run') ∧
        ∀ text', (lex text').map Token.text = (lex text).map Token.text →
          ∃ run', setup.Runs text' run' ∧ run.Like run' := by
  obtain ⟨ls, h⟩ := exists_divides text.toList
  obtain ⟨run, hr⟩ := exists_runs hg text
  have h' := divides_respaced h
  refine ⟨?_, run, hr, runs_like hg h h' hr, ?_⟩
  · rw [h.lex, h'.lex]
  · intro text' he
    exact runs_like hg h (divides_of_texts h he) hr

theorem run_respaced_malformed :
    let setup : Setup := { maxDepth := 1 }
    let text := "def#(\nf(x)1.2.3;;x"
    setup.grammar = .ok { maxDepth := 1 } ∧ respaced text = "def f ( x ) 1.2.3 ; ; x" ∧
      (lex (respaced text)).map Token.unplaced = (lex text).map Token.unplaced ∧
      ∃ run run', setup.Runs text run ∧ setup.Runs (respaced text) run' ∧ run.Like run' := by
  intro setup text
  obtain ⟨hl, run, hr, ⟨run', hr', hlike⟩, -⟩ :=
    Setup.run_respaced setup { maxDepth := 1 } rfl text
  exact ⟨rfl, by decide +kernel, hl, run, run', hr, hr', hlike⟩

end Kaleidoscope
