import Kaleidoscope.Proofs.Abreast
import Kaleidoscope.Proofs.Accounting
import Kaleidoscope.Proofs.Joining
import Kaleidoscope.Proofs.RoundTrip

/-! Two runs side by side. While the feeds are abreast the same happens on both, up to positions.
When the first run is over the second goes on: where the feeds part, or one token later if the
first run breaks off, since the token that a failure stops at is skipped. -/

set_option autoImplicit false

namespace Kaleidoscope

/-- Outcomes of one kind with the same tree up to positions, or with the same message. -/
inductive Outcome.Like : Outcome → Outcome → Prop where
  | success {kind : ConstructKind} {n n' : Node} : n.same n' = true →
      Like ⟨kind, .ok n⟩ ⟨kind, .ok n'⟩
  | failure {kind : ConstructKind} {d d' : Diagnostic} : d.message = d'.message →
      Like ⟨kind, .error d⟩ ⟨kind, .error d'⟩

theorem Outcome.Like.kind_eq {o o' : Outcome} (h : o.Like o') : o.kind = o'.kind := by
  cases h <;> rfl

theorem Outcome.Like.kinds_eq {os os' : List Outcome} (h : List.Forall₂ Outcome.Like os os') :
    os.map Outcome.kind = os'.map Outcome.kind := by
  induction h with
  | nil => rfl
  | cons ho _ ih => rw [List.map_cons, List.map_cons, ih, ho.kind_eq]

inductive Event.Like : Event → Event → Prop where
  | separator {p p' : Parser} : Like (.separator p) (.separator p')
  | outcome {o o' : Outcome} {p p' : Parser} : o.Like o' → Like (.outcome o p) (.outcome o' p')

def Outcome.failsAtEnd (o : Outcome) : Bool :=
  match o.result with
  | .ok _ => false
  | .error d => d.token.any (·.kind == .endOfInput)

/-- The last construct of the run was not finished at the end of the input. -/
def Run.breaksOff (run : Run) : Bool := (Event.outcomes run.events).getLast?.any Outcome.failsAtEnd

theorem Run.breaksOff_after_separator (run : Run) (p : Parser) :
    (run.after (.separator p)).breaksOff = run.breaksOff := rfl

theorem Run.breaksOff_after_outcome {run : Run} {o : Outcome} (h : o.failsAtEnd = false)
    (p : Parser) : (run.after (.outcome o p)).breaksOff = run.breaksOff := by
  have ho : Event.outcomes (run.after (.outcome o p)).events = o :: Event.outcomes run.events := rfl
  rw [breaksOff, breaksOff, ho]
  cases Event.outcomes run.events with
  | nil => simp [h]
  | cons o' os => rw [List.getLast?_cons_cons]

theorem Run.breaksOff_of_events_nil {run : Run} (h : run.events = []) : run.breaksOff = false := by
  simp [breaksOff, h, Event.outcomes]

theorem Run.breaksOff_after_last {run : Run} (h : run.events = []) (o : Outcome) (p : Parser) :
    (run.after (.outcome o p)).breaksOff = o.failsAtEnd := by
  simp [breaksOff, after, h, Event.outcomes]

namespace Event

theorem outcomes_append (es es' : List Event) :
    outcomes (es ++ es') = outcomes es ++ outcomes es' := List.filterMap_append

theorem length_separatorPlaces (n : Nat) (es : List Event) :
    (separatorPlaces n es).length + (outcomes es).length = es.length := by
  induction es generalizing n with
  | nil => rfl
  | cons e es ih =>
    cases e with
    | separator p =>
      have := ih n
      simp only [separatorPlaces, outcomes, List.filterMap_cons, List.length_cons] at this ⊢
      omega
    | outcome o p =>
      have := ih (n + 1)
      simp only [separatorPlaces, outcomes, List.filterMap_cons, List.length_cons] at this ⊢
      omega

theorem Like.outcomes {es es' : List Event} (h : List.Forall₂ Event.Like es es') :
    List.Forall₂ Outcome.Like (Event.outcomes es) (Event.outcomes es') := by
  induction h with
  | nil => exact .nil
  | cons he _ ih =>
    cases he with
    | separator => exact ih
    | outcome ho => exact .cons ho ih

theorem Like.separatorPlaces {es es' : List Event} (h : List.Forall₂ Event.Like es es') (n : Nat) :
    Event.separatorPlaces n es = Event.separatorPlaces n es' := by
  induction h generalizing n with
  | nil => rfl
  | cons he _ ih =>
    cases he with
    | separator => simp only [Event.separatorPlaces, ih]
    | outcome => simp only [Event.separatorPlaces, ih]

end Event

/-- Where a run goes on: on the first of the tokens, or behind it if it has been skipped. -/
inductive Feed.TakesUp (rest : List Token) : Bool → Feed → Prop where
  | whole {f : Feed} : f.Delivers rest → TakesUp rest false f
  | skipped {f f₁ : Feed} : f.Delivers rest → f.advance = .ok () f₁ → TakesUp rest true f₁

namespace Grammar

open Rule

variable {g : Grammar} {rest : List Token} {n : Nat} {f f' f₁ f₁' f₂ : Feed}

theorem construct_ok {kind : ConstructKind} {node : Node}
    (hr : g.rule kind ⟨f, 0⟩ = .ok node ⟨f₁, 0⟩) :
    g.construct kind ⟨f, 0⟩ = .ok ⟨kind, .ok node⟩ ⟨f₁, 0⟩ := by
  simp only [construct, bind, EStateM.bind, attempt, hr]
  rfl

theorem construct_error {kind : ConstructKind} {d : Diagnostic}
    (hr : g.rule kind ⟨f, 0⟩ = .error (.diagnostic d) ⟨f₁, 0⟩) (ha : f₁.advance = .ok () f₂) :
    g.construct kind ⟨f, 0⟩ = .ok ⟨kind, .error d⟩ ⟨f₂, 0⟩ := by
  have hadvance : Parser.advance ⟨f₁, 0⟩ = .ok () ⟨f₂, 0⟩ := by simp only [Parser.advance, ha]
  simp only [construct, bind, EStateM.bind, attempt, hr, Outcome.succeeded, Outcome.node?,
    Option.isSome_none, Bool.not_false, if_true, hadvance]
  rfl

theorem failsAtEnd_atToken (kind : ConstructKind) (t : Token) (c : Complaint) :
    (Outcome.mk kind (.error (.atToken t c))).failsAtEnd = (t.kind == .endOfInput) := by
  simp [Outcome.failsAtEnd, Diagnostic.atToken]

theorem length_add_of_abreast {m : Nat} {u : List Token} (h : f.Abreast g rest n f')
    (h₁ : f₁.Abreast g rest m f₁') (hp : f.Passes u f₁) : u.length + m = n := by
  obtain ⟨w, hw, hn⟩ := h.delivers
  obtain ⟨v, hv, hm⟩ := h₁.delivers
  obtain ⟨v', rfl, hv'⟩ := hw.after hp
  rw [hv'.unique hv, List.length_append] at hn
  omega

theorem construct_abreast (kind : ConstructKind) (h : f.Abreast g rest n f')
    (hk : f.current.kind ≠ .endOfInput) :
    ∃ o o' f₁ f₁', g.construct kind ⟨f, 0⟩ = .ok o ⟨f₁, 0⟩ ∧
      g.construct kind ⟨f', 0⟩ = .ok o' ⟨f₁', 0⟩ ∧ o.Like o' ∧
      ((o.failsAtEnd = false ∧ ∃ m < n, f₁.Abreast g rest m f₁') ∨
        (o.failsAtEnd = true ∧ f₁.current.kind = .endOfInput ∧ f₁'.TakesUp rest true)) := by
  have halike := alike_rule kind h hk
  have hends := ends_rule (g := g) (f := f) kind
  generalize hr : g.rule kind ⟨f, 0⟩ = r, hr' : g.rule kind ⟨f', 0⟩ = r' at halike
  rw [hr] at hends
  cases halike with
  | @ok m node node' f₁ f₁' _ h₁ hs =>
    refine ⟨_, _, f₁, f₁', construct_ok hr, construct_ok hr', .success hs, .inl ⟨rfl, m, ?_, h₁⟩⟩
    cases hends with
    | ok hp hu =>
      have hpos := List.length_pos_iff.2 hu.1.ne_nil
      have := length_add_of_abreast h h₁ hp
      omega
  | @complaint m c f₁ f₁' hm h₁ =>
    by_cases hk₁ : f₁.current.kind = .endOfInput
    · cases h₁ with
      | token _ hne => exact absurd hk₁ hne
      | parted hd hd' hs =>
        obtain ⟨f₂, ha⟩ := hd.advance_ok
        obtain ⟨f₂', ha'⟩ := hd'.advance_ok
        obtain ⟨-, -, hc⟩ := hd.of_finished hk₁ ha
        refine ⟨_, _, f₂, f₂', construct_error hr ha, construct_error hr' ha', .failure rfl,
          .inr ⟨?_, hc ▸ hk₁, .skipped hd' ha'⟩⟩
        rw [failsAtEnd_atToken, hk₁]
        rfl
    · obtain ⟨m, f₂, f₂', rfl, -, ha, ha', h₂⟩ := h₁.advance hk₁
      refine ⟨_, _, f₂, f₂', construct_error hr ha, construct_error hr' ha', .failure rfl,
        .inl ⟨?_, m, hm, h₂⟩⟩
      rw [failsAtEnd_atToken]
      simpa using hk₁

theorem events_of_finished (hk : f.current.kind = .endOfInput) (k : Nat) :
    (g.runWithin k ⟨f, 0⟩).events = [] := by
  have hs : f.current.stage = .finished := by simp only [Token.stage, hk]
  cases k with
  | zero => rfl
  | succ k => simp only [runWithin, hs]

/-- The second run begins with what happens on the first, for `n` tokens at most, and has as many
of its `k` turns left as it needs to go on where the first is over. -/
def Precedes (g : Grammar) (rest : List Token) (n k : Nat) (run run' : Run) : Prop :=
  ∃ es j f, run'.events = es ++ (g.runWithin j ⟨f, 0⟩).events ∧ k ≤ j + n ∧
    List.Forall₂ Event.Like run.events es ∧ f.TakesUp rest run.breaksOff

theorem Precedes.after {m k : Nat} {run run' : Run} {e e' : Event}
    (h : g.Precedes rest m k run run') (he : e.Like e')
    (hb : (run.after e).breaksOff = run.breaksOff) (hm : m < n) :
    g.Precedes rest n (k + 1) (run.after e) (run'.after e') := by
  obtain ⟨es, j, f, hrun, hj, hes, htake⟩ := h
  refine ⟨e' :: es, j, f, ?_, by omega, .cons he hes, hb ▸ htake⟩
  rw [Run.after, hrun, List.cons_append]

theorem precedes_of_events_nil {k : Nat} {run : Run} (hnil : run.events = [])
    (h : f'.Delivers rest) : g.Precedes rest n k run (g.runWithin k ⟨f', 0⟩) := by
  refine ⟨[], k, f', rfl, by omega, ?_, ?_⟩
  · rw [hnil]
    exact .nil
  · rw [Run.breaksOff_of_events_nil hnil]
    exact .whole h

theorem precedes_last {k : Nat} {run : Run} {o o' : Outcome} {p p' : Parser}
    (hnil : run.events = []) (ho : o.Like o') (hfail : o.failsAtEnd = true)
    (h : f'.TakesUp rest true) (hn : 0 < n) :
    g.Precedes rest n (k + 1) (run.after (.outcome o p))
      (Run.after (.outcome o' p') (g.runWithin k ⟨f', 0⟩)) := by
  refine ⟨[.outcome o' p'], k, f', rfl, by omega, ?_, ?_⟩
  · rw [Run.after, hnil]
    exact .cons (.outcome ho) .nil
  · rw [Run.breaksOff_after_last hnil, hfail]
    exact h

theorem runWithin_abreast {k k' : Nat} (h : f.Abreast g rest n f') (hk : n ≤ k) (hk' : n ≤ k') :
    g.Precedes rest n k' (g.runWithin k ⟨f, 0⟩) (g.runWithin k' ⟨f', 0⟩) := by
  -- On the turns of the first run: each takes a shared token, so the second run has its turn too.
  induction k generalizing n f f' k' with
  | zero =>
    obtain rfl : n = 0 := by omega
    cases h with
    | parted _ hd' _ => exact precedes_of_events_nil rfl hd'
  | succ k ih =>
    by_cases hend : f.current.kind = .endOfInput
    · cases h with
      | parted _ hd' _ => exact precedes_of_events_nil (events_of_finished hend (k + 1)) hd'
      | token _ hne => exact absurd hend hne
    obtain ⟨m, f₁, f₁', rfl, hl, ha, ha', h₁⟩ := h.advance hend
    obtain ⟨k', rfl⟩ := Nat.exists_eq_add_one.2 (show 0 < k' by omega)
    have hstage := hl.stage_eq
    cases hs : f.current.stage with
    | finished => exact absurd (Token.kind_of_stage hs) hend
    | separator =>
      rw [runWithin_separator hs ha, runWithin_separator (hstage.symm.trans hs) ha']
      exact (ih h₁ (Nat.le_of_succ_le_succ hk) (Nat.le_of_succ_le_succ hk')).after .separator
        (Run.breaksOff_after_separator _ _) (Nat.lt_succ_self m)
    | construct kind =>
      obtain ⟨o, o', f₂, f₂', hc, hc', ho, hgo⟩ := construct_abreast kind h hend
      have hrun : g.runWithin (k + 1) ⟨f, 0⟩ =
          Run.after (.outcome o ⟨f₂, 0⟩) (g.runWithin k ⟨f₂, 0⟩) := by
        simp only [runWithin, hs, hc]
      have hrun' : g.runWithin (k' + 1) ⟨f', 0⟩ =
          Run.after (.outcome o' ⟨f₂', 0⟩) (g.runWithin k' ⟨f₂', 0⟩) := by
        simp only [runWithin, ← hstage, hs, hc']
      rw [hrun, hrun']
      obtain ⟨hfail, m₂, hm, h₂⟩ | ⟨hfail, hend₂, htake⟩ := hgo
      · have hk₂ : m₂ ≤ k := by omega
        have hk₂' : m₂ ≤ k' := by omega
        exact (ih h₂ hk₂ hk₂').after (.outcome ho) (Run.breaksOff_after_outcome hfail _) hm
      · exact precedes_last (events_of_finished hend₂ k) ho hfail htake (Nat.succ_pos m)

end Grammar

/-- What is delivered are the tokens of the lexemes, and then the end of the input. -/
def Feed.Holds (f : Feed) (ls : List (List Char)) : Prop :=
  ∃ w, f.Delivers w ∧ w.map Token.unplaced = bareTokens ls

namespace Feed.Holds

variable {f f' : Feed} {l : List Char} {ls ls' : List (List Char)}

theorem length_le (h : f.Holds ls) : ls.length ≤ f.size := by
  obtain ⟨w, hw, hm⟩ := h
  have hlen := congrArg List.length hm
  have hle := hw.length_le
  simp only [bareTokens, List.length_map, List.length_append, List.length_singleton] at hlen
  omega

theorem congr (h : f.Holds ls) (he : bareTokens ls = bareTokens ls') : f.Holds ls' := by
  obtain ⟨w, hw, hm⟩ := h
  exact ⟨w, hw, hm.trans he⟩

theorem current (h : f.Holds ls) : (bareTokens ls).head? = some f.current.unplaced := by
  obtain ⟨w, hw, hm⟩ := h
  cases w with
  | nil => exact absurd rfl hw.ne_nil
  | cons t w => rw [← hm, hw.current, List.map_cons, List.head?_cons]

theorem finished (h : f.Holds []) : ∃ place, f.Delivers [.endOfInput place] := by
  obtain ⟨w, hw, hm⟩ := h
  obtain ⟨t, w, rfl, ht, hnil⟩ := List.map_eq_cons_iff.1 hm
  obtain rfl := List.map_eq_nil_iff.1 hnil
  refine ⟨t.start, ?_⟩
  have hk : f.current.kind = .endOfInput := hw.current ▸ congrArg Token.kind ht
  obtain ⟨place, he⟩ := hw.eq_of_finished hk
  cases he
  exact hw

theorem tail (h : f.Holds (l :: ls)) :
    f.current.unplaced = Token.ofLexeme {} l ∧ f.current.kind ≠ .endOfInput ∧
      ∃ f₁, f.advance = .ok () f₁ ∧ f₁.Holds ls := by
  obtain ⟨w, hw, hm⟩ := h
  obtain ⟨t, w, rfl, ht, hw₁⟩ := List.map_eq_cons_iff.1 hm
  have hne : w ≠ [] := by
    intro hnil
    subst hnil
    exact Grammar.bareTokens_ne_nil ls hw₁.symm
  obtain ⟨f₂, hp, hd⟩ := Delivers.passes (u := [t]) hw hne
  obtain ⟨rfl, hk, f₁, ha, hp₁⟩ := hp.head
  cases hp₁.eq_of_nil
  exact ⟨ht, hk, _, ha, w, hd, hw₁⟩

theorem abreast {g : Grammar} (h : f.Holds ls) (h' : f'.Holds (ls ++ ls'))
    (hs : ∀ f₁ : Feed, f₁.Holds ls' → g.Stops f₁.current) :
    ∃ rest, rest.map Token.unplaced = bareTokens ls' ∧ f.Abreast g rest ls.length f' := by
  induction ls generalizing f f' with
  | nil =>
    obtain ⟨place, hd⟩ := h.finished
    obtain ⟨rest, hd', hm⟩ := h'
    exact ⟨rest, hm, .parted hd hd' (hs f' ⟨rest, hd', hm⟩)⟩
  | cons l ls ih =>
    obtain ⟨ht, hk, f₁, ha, h₁⟩ := h.tail
    obtain ⟨ht', -, f₁', ha', h₁'⟩ := h'.tail
    obtain ⟨rest, hm, habreast⟩ := ih h₁ h₁'
    refine ⟨rest, hm, .token ⟨ht.trans ht'.symm, ?_⟩ hk ha ha' habreast⟩
    rw [show f.current.payload = f.current.unplaced.payload from rfl, ht]
    exact Token.payload_ofLexeme_ne {} l

theorem stops_finished {g : Grammar} (h : f.Holds []) : g.Stops f.current := by
  obtain ⟨place, hd⟩ := h.finished
  rw [hd.current]
  exact g.stops_endOfInput place

end Feed.Holds

theorem Feed.TakesUp.holds {f : Feed} {rest : List Token} {skip : Bool}
    {ls : List (List Char)} (h : f.TakesUp rest skip)
    (hm : rest.map Token.unplaced = bareTokens ls) : f.Holds (if skip then ls.tail else ls) := by
  cases h with
  | whole hd => exact ⟨rest, hd, hm⟩
  | @skipped f₀ _ hd ha =>
    have hf₀ : f₀.Holds ls := ⟨rest, hd, hm⟩
    cases ls with
    | nil =>
      obtain ⟨place, hd₀⟩ := hf₀.finished
      obtain ⟨-, hd₁, -⟩ := hd₀.of_finished (by rw [hd₀.current]; rfl) ha
      exact ⟨_, hd₁, rfl⟩
    | cons l ls =>
      obtain ⟨-, -, f₁, ha', h₁⟩ := hf₀.tail
      cases ha.symm.trans ha'
      exact h₁

namespace Grammar

variable {g : Grammar} {f f' : Feed} {ls ls' : List (List Char)} {k : Nat}

/-- A run on more lexemes begins with what happens on the first of them alone. It goes on behind
these, or one lexeme later if the run on these alone breaks off. -/
theorem run_append (h : f.Holds ls) (h' : f'.Holds (ls ++ ls'))
    (hs : ∀ f₁ : Feed, f₁.Holds ls' → g.Stops f₁.current) (hk : (ls ++ ls').length < k) :
    ∃ es j f₁, (g.runWithin k ⟨f', 0⟩).events = es ++ (g.runWithin j ⟨f₁, 0⟩).events ∧
      ls'.length < j ∧ List.Forall₂ Event.Like (g.run ⟨f, 0⟩).events es ∧
      f₁.Holds (if (g.run ⟨f, 0⟩).breaksOff then ls'.tail else ls') := by
  obtain ⟨rest, hm, habreast⟩ := h.abreast h' hs
  rw [List.length_append] at hk
  have hsize := h.length_le
  have hle : ls.length ≤ f.size + 1 := by omega
  have hle' : ls.length ≤ k := by omega
  obtain ⟨es, j, f₁, he, hj, hes, htake⟩ := runWithin_abreast habreast hle hle'
  exact ⟨es, j, f₁, he, by omega, hes, htake.holds hm⟩

theorem run_like (h : f.Holds ls) (h' : f'.Holds ls) (hk : ls.length < k) :
    List.Forall₂ Event.Like (g.run ⟨f, 0⟩).events (g.runWithin k ⟨f', 0⟩).events := by
  rw [← List.append_nil ls] at h' hk
  obtain ⟨es, j, f₁, he, -, hes, h₁⟩ := run_append h h' (fun f₁ h₁ => h₁.stops_finished) hk
  rw [List.tail_nil, ite_self] at h₁
  obtain ⟨place, hd⟩ := h₁.finished
  rw [he, events_of_finished (by rw [hd.current]; rfl), List.append_nil]
  exact hes

end Grammar

/-- All of a text is run, and no fault comes up. -/
def Setup.Runs (setup : Setup) (text : String) (run : Run) : Prop :=
  setup.run (.ofText text) = .ok run ∧ run.fault = none

theorem Setup.runs_of_divides {setup : Setup} {g : Grammar} (hg : setup.grammar = .ok g)
    {text : String} {ls : List (List Char)} (h : Divides text.toList ls) :
    ∃ f, setup.Runs text (g.run ⟨f, 0⟩) ∧ f.Holds ls := by
  obtain ⟨f, hp, hw⟩ := parser_ok hg text
  obtain ⟨hf, -⟩ := Grammar.accountsAll_runWithin (g := g) hw hw.length_le
  refine ⟨f, ⟨?_, hf⟩, lex text, hw, h.lex⟩
  simp only [run, hp]
  rfl

theorem Setup.exists_runs {setup : Setup} {g : Grammar} (hg : setup.grammar = .ok g)
    (text : String) : ∃ run, setup.Runs text run := by
  obtain ⟨ls, h⟩ := exists_divides text.toList
  obtain ⟨f, hrun, -⟩ := runs_of_divides hg h
  exact ⟨_, hrun⟩

theorem Setup.Runs.like {setup : Setup} {g : Grammar} (hg : setup.grammar = .ok g)
    {text : String} {run : Run} (hr : setup.Runs text run) {ls : List (List Char)}
    (h : Divides text.toList ls) {f : Feed} (hf : f.Holds ls) {k : Nat} (hk : ls.length < k) :
    List.Forall₂ Event.Like run.events (g.runWithin k ⟨f, 0⟩).events := by
  obtain ⟨f₁, hrun, hf₁⟩ := runs_of_divides hg h
  cases hr.1.symm.trans hrun.1
  exact Grammar.run_like hf₁ hf hk

theorem Setup.runs_line {setup : Setup} {g : Grammar} (hg : setup.grammar = .ok g)
    {a text : String} {tail : List Char} {ls : List (List Char)}
    (htext : text.toList = a.toList ++ '\n' :: tail) (htail : Divides tail ls)
    (hs : ∀ f : Feed, f.Holds ls → g.Stops f.current) {first : Run} (hfirst : setup.Runs a first) :
    ∃ run es j f, setup.Runs text run ∧ run.events = es ++ (g.runWithin j ⟨f, 0⟩).events ∧
      ls.length < j ∧ List.Forall₂ Event.Like first.events es ∧
      f.Holds (if first.breaksOff then ls.tail else ls) := by
  obtain ⟨ls₁, ha⟩ := exists_divides a.toList
  have hall : Divides text.toList (ls₁ ++ ls) := htext ▸ ha.line htail
  obtain ⟨f₁, hrun₁, hf₁⟩ := runs_of_divides hg ha
  obtain ⟨f, hrun, hf⟩ := runs_of_divides hg hall
  cases hfirst.1.symm.trans hrun₁.1
  obtain ⟨es, j, f', he, hj, hes, hf'⟩ :=
    Grammar.run_append hf₁ hf hs (Nat.lt_succ_of_le hf.length_le)
  exact ⟨_, es, j, f', hrun, he, hj, hes, hf'⟩

theorem Setup.Runs.eq_of_map {α : Type} {setup : Setup} {text : String} {run : Run}
    (h : setup.Runs text run) (view : Run → α) {a : α}
    (ha : (setup.run (.ofText text)).toOption.map view = some a) : view run = a := by
  rw [h.1] at ha
  exact Option.some.inj ha

end Kaleidoscope
