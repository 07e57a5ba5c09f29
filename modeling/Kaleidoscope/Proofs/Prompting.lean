import Kaleidoscope.Proofs.Boundary
import Kaleidoscope.Proofs.Building
import Kaleidoscope.Proofs.Lookahead
import Kaleidoscope.Session

/-! Prompts. No construct passes a semicolon behind its first token, so a semicolon is either met
between constructs, and a prompt is shown, or it is the token that a construct breaks off at. Then
it is skipped, and no prompt is shown for it. -/

set_option autoImplicit false

namespace Kaleidoscope

/-- The construct breaks off at the character, which is skipped. -/
def Outcome.failsAt (s : String) (o : Outcome) : Bool :=
  match o.result with
  | .ok _ => false
  | .error d => d.token.any (·.isChar s)

theorem Token.isChar_of_stage {t : Token} (h : t.stage = .separator) : t.isChar ";" = true := by
  unfold stage at h
  split at h
  · cases h
  · cases h
  · cases h
  · split at h
    · assumption
    · cases h

theorem Token.stage_of_isChar {t : Token} (h : t.isChar ";" = true) : t.stage = .separator := by
  simp only [stage, kind_of_isChar h, h, if_true]

theorem payload_ne_of_mem_lex {text : String} {t : Token} (ht : t ∈ lex text) :
    t.payload ≠ .number .nan := by
  obtain ⟨ls, h⟩ := exists_divides text.toList
  have hmem : t.unplaced ∈ bareTokens ls := h.lex ▸ List.mem_map_of_mem ht
  obtain ⟨l, -, hl⟩ := List.mem_map.1 hmem
  rw [show t.payload = t.unplaced.payload from rfl, ← hl]
  exact Token.payload_ofLexeme_ne {} l

namespace Feed

theorem Passes.abreast {g : Grammar} {f f₁ : Feed} {u rest : List Token} (h : f.Passes u f₁)
    (hu : ∀ t ∈ u, t.payload ≠ .number .nan) (hd : f₁.Delivers rest) (hs : g.Stops f₁.current) :
    (prepend u ended).Abreast g rest u.length f := by
  induction h with
  | here =>
    have hended : ended.Delivers [.endOfInput {}] := .finished rfl rfl
    exact .parted hended hd hs
  | token hk ha _ ih =>
    obtain ⟨ht, hu⟩ := List.forall_mem_cons.1 hu
    exact .token ⟨rfl, ht⟩ hk rfl ha (ih hu hd hs)

theorem Abreast.length_eq {g : Grammar} {f f' : Feed} {n : Nat} {rest w : List Token}
    (h : f.Abreast g rest n f') (hw : f'.Delivers w) : w.length = n + rest.length := by
  induction h generalizing w with
  | parted _ hd _ => rw [hw.unique hd, Nat.zero_add]
  | token hl hk _ ha' _ ih =>
    obtain ⟨w₁, rfl, hw₁⟩ := hw.tail (hl.kind_eq ▸ hk) ha'
    rw [List.length_cons, ih hw₁]
    omega

end Feed

namespace Grammar

variable {g : Grammar}

theorem length_le_of_attempt {kind : ConstructKind} {f f₁ f₂ : Feed} {t : Token}
    {u v w : List Token} {r : ParseResult} (hw : f.Delivers w)
    (hnan : ∀ s ∈ w, s.payload ≠ .number .nan) (hp : f.Passes (t :: u) f₁)
    (hs : g.Stops f₁.current) (ha : (g.rule kind).attempt ⟨f, 0⟩ = .ok r ⟨f₂, 0⟩)
    (hv : f.Passes v f₂) : v.length ≤ u.length + 1 := by
  obtain ⟨rest, rfl, hd⟩ := hw.after hp
  obtain ⟨x, hx, hw₂⟩ := hw.after hv
  have hlen := congrArg List.length hx
  simp only [List.length_append, List.length_cons] at hlen
  have habreast := hp.abreast (fun s h => hnan s (List.mem_append_left _ h)) hd hs
  have halike := alike_rule kind habreast hp.head.2.1
  generalize g.rule kind ⟨.prepend (t :: u) .ended, 0⟩ = r₁, hr : g.rule kind ⟨f, 0⟩ = r₂ at halike
  cases halike with
  | ok _ h₂ _ =>
    simp only [Rule.attempt, hr] at ha
    cases ha
    have := h₂.length_eq hw₂
    omega
  | complaint _ h₂ =>
    simp only [Rule.attempt, hr] at ha
    cases ha
    have := h₂.length_eq hw₂
    omega

theorem not_stops_of_attempt {kind : ConstructKind} {f f₁ : Feed} {t : Token} {u w : List Token}
    {r : ParseResult} (hw : f.Delivers w) (hnan : ∀ s ∈ w, s.payload ≠ .number .nan)
    (ha : (g.rule kind).attempt ⟨f, 0⟩ = .ok r ⟨f₁, 0⟩) (hp : f.Passes (t :: u) f₁) :
    ∀ s ∈ u, ¬ g.Stops s := by
  intro s hs hstop
  obtain ⟨u₁, u₂, rfl⟩ := List.append_of_mem hs
  obtain ⟨f₂, hp₁, hp₂⟩ := Feed.Passes.split (u := t :: u₁) hp
  obtain ⟨rfl, -⟩ := hp₂.head
  have hlen := length_le_of_attempt hw hnan hp₁ hstop ha hp
  simp only [List.length_cons, List.length_append] at hlen
  omega

theorem countP_semicolon_of_attempt (hx : g.precedence.Excludes [';']) {kind : ConstructKind}
    {f f₁ : Feed} {u w : List Token} {r : ParseResult} (hw : f.Delivers w)
    (hnan : ∀ s ∈ w, s.payload ≠ .number .nan) (hk : f.current.stage = .construct kind)
    (ha : (g.rule kind).attempt ⟨f, 0⟩ = .ok r ⟨f₁, 0⟩) (hp : f.Passes u f₁) :
    u.countP (·.isChar ";") = 0 := by
  refine List.countP_eq_zero.2 ?_
  cases u with
  | nil => simp
  | cons t u =>
    refine List.forall_mem_cons.2 ⟨?_, ?_⟩
    · obtain ⟨rfl, -⟩ := hp.head
      intro ht
      cases hk.symm.trans (Token.stage_of_isChar ht)
    · intro s hs ht
      exact not_stops_of_attempt hw hnan ha hp s hs (stops_of_semicolon hx ht)

end Grammar

namespace Session

theorem run_of_ok {setup : Setup} {source : Source} {run : Run} (style : ReportStyle)
    (hr : setup.run source = .ok run) (hf : run.fault = none ∨ run.fault = some .interrupted) :
    Session.run setup style source =
      ⟨⟨prompt, 0⟩ :: run.events.flatMap (eventPrints style) ++
        [⟨farewell, run.final.feed.taken⟩], run.final.feed.taken, .finished⟩ := by
  obtain hf | hf := hf <;> simp only [Session.run, hr, ofRun, hf]

def prompts (prints : List TimedPrint) : Nat := (prints.map (·.print)).count prompt

theorem prompts_append (ps qs : List TimedPrint) :
    prompts (ps ++ qs) = prompts ps + prompts qs := by
  rw [prompts, List.map_append, List.count_append, prompts, prompts]

theorem line_ne_prompt (channel : Channel) (text : String) : .line channel text ≠ prompt := by
  intro h
  have hlast := congrArg (fun p => p.text.toList.getLast?) h
  simp [Print.line, prompt] at hlast

theorem prompts_outcome (style : ReportStyle) (o : Outcome) (p : Parser) :
    prompts (eventPrints style (.outcome o p)) = 0 := by
  refine List.count_eq_zero.2 ?_
  simp only [eventPrints, List.map_map, Function.comp_def, List.map_id', Outcome.report]
  split
  · simp [(line_ne_prompt _ _).symm]
  · split <;> split <;> simp [(line_ne_prompt _ _).symm]

end Session

namespace Grammar

variable {g : Grammar}

theorem Accounts.countP_semicolon (hx : g.precedence.Excludes [';']) {p q : Parser} {e : Event}
    {u w : List Token} (h : g.Accounts p e u q) (hw : p.feed.Delivers w)
    (hnan : ∀ s ∈ w, s.payload ≠ .number .nan) (style : ReportStyle) :
    u.countP (·.isChar ";") = Session.prompts (Session.eventPrints style e) +
      (Event.outcomes [e]).countP (Outcome.failsAt ";") := by
  cases h with
  | @separator f f₁ hs _ =>
    have hprint : Session.prompts (Session.eventPrints style (.separator ⟨f, 0⟩)) = 1 := by
      simp [Session.prompts, Session.eventPrints]
    rw [hprint]
    simp [Token.isChar_of_stage hs, Event.outcomes]
  | success hs ha hp _ =>
    rw [countP_semicolon_of_attempt hx hw hnan hs ha hp, Session.prompts_outcome]
    simp [Event.outcomes, Outcome.failsAt]
  | @failure f f₁ f₂ kind c u hs ha hp _ _ =>
    rw [List.countP_append, countP_semicolon_of_attempt hx hw hnan hs ha hp,
      Session.prompts_outcome]
    cases hc : f₁.current.isChar ";" <;>
      simp [Event.outcomes, Outcome.failsAt, Diagnostic.atToken, hc]
  | failureAtEnd hs ha hp hk _ =>
    rw [countP_semicolon_of_attempt hx hw hnan hs ha hp, Session.prompts_outcome]
    simp [Event.outcomes, Outcome.failsAt, Diagnostic.atToken, Token.isChar_of_kind_ne, hk]

theorem AccountsAll.countP_semicolon (hx : g.precedence.Excludes [';']) {p r : Parser}
    {es : List Event} {us : List (List Token)} (h : g.AccountsAll p es us r) {w : List Token}
    (hw : p.feed.Delivers w) (hnan : ∀ s ∈ w, s.payload ≠ .number .nan) (style : ReportStyle) :
    us.flatten.countP (·.isChar ";") =
      Session.prompts (es.flatMap (Session.eventPrints style)) +
        (Event.outcomes es).countP (Outcome.failsAt ";") := by
  induction h generalizing w with
  | finished => rfl
  | @turn _ _ _ e _ es _ ha _ ih =>
    have hcount := ha.countP_semicolon hx hw hnan style
    obtain ⟨v, rfl, hv, -⟩ := ha.delivers hw
    have hrest := ih hv fun s hs => hnan s (List.mem_append_right _ hs)
    have hes : Event.outcomes (e :: es) = Event.outcomes [e] ++ Event.outcomes es :=
      Event.outcomes_append [e] es
    rw [List.flatten_cons, List.countP_append, List.flatMap_cons, Session.prompts_append, hes,
      List.countP_append, hcount, hrest]
    omega

end Grammar

/-- A session shows the prompt at the start, and once for each semicolon of its text but those that
a construct breaks off at. So there is a prompt for every semicolon exactly if no construct breaks
off at one. -/
theorem Session.prompts_run (setup : Setup) (g : Grammar) (hg : setup.grammar = .ok g)
    (hx : g.precedence.Excludes [';']) (style : ReportStyle) (text : String) :
    ∃ run, setup.Runs text run ∧
      (Session.run setup style (.ofText text)).ending = .finished ∧
      (Session.run setup style (.ofText text)).prints.head? = some ⟨prompt, 0⟩ ∧
      prompts (Session.run setup style (.ofText text)).prints +
          (Event.outcomes run.events).countP (Outcome.failsAt ";") =
        1 + (lex text).countP (·.isChar ";") ∧
      (prompts (Session.run setup style (.ofText text)).prints =
          1 + (lex text).countP (·.isChar ";") ↔
        ∀ o ∈ Event.outcomes run.events, o.failsAt ";" = false) := by
  obtain ⟨f, us, finish, -, hw, hrun, hfault, hall, hl, -⟩ := setup.run_builds hg text
  have hnan : ∀ t ∈ lex text, t.payload ≠ .number .nan := fun t => payload_ne_of_mem_lex
  have hcount := hall.countP_semicolon hx hw hnan style
  have hlex : (lex text).countP (·.isChar ";") = us.flatten.countP (·.isChar ";") := by
    rw [hl, List.countP_append]
    simp [Token.isChar_of_kind_ne, Token.endOfInput]
  have hprompts : prompts (Session.run setup style (.ofText text)).prints =
      1 + prompts ((g.run ⟨f, 0⟩).events.flatMap (eventPrints style)) := by
    rw [run_of_ok style hrun (.inl hfault), prompts_append, ← List.singleton_append,
      prompts_append, Nat.add_assoc]
    rfl
  have htotal : prompts (Session.run setup style (.ofText text)).prints +
      (Event.outcomes (g.run ⟨f, 0⟩).events).countP (Outcome.failsAt ";") =
        1 + (lex text).countP (·.isChar ";") := by
    rw [hprompts, hlex, hcount]
    omega
  have hzero : (Event.outcomes (g.run ⟨f, 0⟩).events).countP (Outcome.failsAt ";") = 0 ↔
      ∀ o ∈ Event.outcomes (g.run ⟨f, 0⟩).events, o.failsAt ";" = false := by
    simp [List.countP_eq_zero]
  refine ⟨_, ⟨hrun, hfault⟩, ?_, ?_, htotal, ?_⟩
  · rw [run_of_ok style hrun (.inl hfault)]
  · rw [run_of_ok style hrun (.inl hfault)]
    rfl
  · rw [← hzero]
    omega

theorem prompts_run_broken :
    let setup : Setup := {}
    setup.grammar = .ok {} ∧ ({} : Grammar).precedence.Excludes [';'] ∧
      ∃ run, setup.Runs "1 + ; ; f(2 ;" run ∧
        (Event.outcomes run.events).countP (Outcome.failsAt ";") = 2 ∧
        (lex "1 + ; ; f(2 ;").countP (·.isChar ";") = 3 ∧
        Session.prompts (Session.run setup {} (.ofText "1 + ; ; f(2 ;")).prints = 2 := by
  intro setup
  have hx : ({} : Grammar).precedence.Excludes [';'] := by decide
  have hlex : (lex "1 + ; ; f(2 ;").countP (·.isChar ";") = 3 := by decide +kernel
  obtain ⟨run, hrun, -, -, hcount, -⟩ :=
    Session.prompts_run setup {} rfl hx {} "1 + ; ; f(2 ;"
  have hbroken : (Event.outcomes run.events).countP (Outcome.failsAt ";") = 2 :=
    hrun.eq_of_map (fun run => (Event.outcomes run.events).countP (Outcome.failsAt ";"))
      (by decide +kernel)
  rw [hbroken, hlex] at hcount
  exact ⟨rfl, hx, run, hrun, hbroken, hlex, by omega⟩

/-- There is not a prompt for every semicolon: none is shown for the one that stands where an
operand is missing. -/
theorem not_prompts_every_semicolon :
    ¬ ∀ (setup : Setup) (g : Grammar), setup.grammar = .ok g → g.precedence.Excludes [';'] →
      ∀ (style : ReportStyle) (text : String),
        Session.prompts (Session.run setup style (.ofText text)).prints =
          1 + (lex text).countP (·.isChar ";") := by
  intro h
  have hone := h {} {} rfl (by decide) {} "1 + ;"
  have hshown : Session.prompts (Session.run {} {} (.ofText "1 + ;")).prints = 1 := by
    decide +kernel
  have hlex : (lex "1 + ;").countP (·.isChar ";") = 1 := by decide +kernel
  rw [hshown, hlex] at hone
  cases hone

end Kaleidoscope
