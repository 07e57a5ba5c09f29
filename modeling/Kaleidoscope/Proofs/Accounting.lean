import Kaleidoscope.Proofs.Acceptance
import Kaleidoscope.Proofs.Scanning

/-! The loop at top level accounts for every token once. What happens on a turn takes a share of
the tokens: a separator takes the semicolon, a construct the tokens it is made of, and a failure
what was passed and the token it stopped at, unless that is the end of the input. -/

set_option autoImplicit false

namespace Kaleidoscope

/-- What the first token of its share called for. -/
def Event.stage : Event → Stage
  | .separator _ => .separator
  | .outcome o _ => .construct o.kind

def Event.FailsAtEnd : Event → Prop
  | .separator _ => False
  | .outcome o _ =>
    ∃ d t, o.result = .error d ∧ d.token = some t ∧ t.kind = .endOfInput

theorem Token.kind_ne_of_stage {t : Token} {s : Stage} (h : t.stage = s) (hs : s ≠ .finished) :
    t.kind ≠ .endOfInput := by
  intro hk
  simp only [stage, hk] at h
  exact hs h.symm

theorem Token.kind_of_stage {t : Token} (h : t.stage = .finished) : t.kind = .endOfInput := by
  unfold stage at h
  split at h
  · assumption
  · cases h
  · cases h
  · split at h <;> cases h

namespace Grammar

variable {g : Grammar}

/-- A turn of the loop, what happens on it, and the tokens that it takes. -/
inductive Accounts (g : Grammar) : Parser → Event → List Token → Parser → Prop where
  | separator {f f₁ : Feed} : f.current.stage = .separator → f.advance = .ok () f₁ →
      Accounts g ⟨f, 0⟩ (.separator ⟨f, 0⟩) [f.current] ⟨f₁, 0⟩
  | success {f f₁ : Feed} {kind : ConstructKind} {node : Node} {u : List Token} :
      f.current.stage = .construct kind →
      (g.rule kind).attempt ⟨f, 0⟩ = .ok (.ok node) ⟨f₁, 0⟩ →
      f.Passes u f₁ → g.Constructs kind u →
      Accounts g ⟨f, 0⟩ (.outcome ⟨kind, .ok node⟩ ⟨f₁, 0⟩) u ⟨f₁, 0⟩
  | failure {f f₁ f₂ : Feed} {kind : ConstructKind} {c : Complaint} {u : List Token} :
      f.current.stage = .construct kind →
      (g.rule kind).attempt ⟨f, 0⟩ = .ok (.error (.atToken f₁.current c)) ⟨f₁, 0⟩ →
      f.Passes u f₁ → f₁.current.kind ≠ .endOfInput → f₁.advance = .ok () f₂ →
      Accounts g ⟨f, 0⟩ (.outcome ⟨kind, .error (.atToken f₁.current c)⟩ ⟨f₂, 0⟩)
        (u ++ [f₁.current]) ⟨f₂, 0⟩
  | failureAtEnd {f f₁ f₂ : Feed} {kind : ConstructKind} {c : Complaint} {u : List Token} :
      f.current.stage = .construct kind →
      (g.rule kind).attempt ⟨f, 0⟩ = .ok (.error (.atToken f₁.current c)) ⟨f₁, 0⟩ →
      f.Passes u f₁ → f₁.current.kind = .endOfInput → f₁.advance = .ok () f₂ →
      Accounts g ⟨f, 0⟩ (.outcome ⟨kind, .error (.atToken f₁.current c)⟩ ⟨f₂, 0⟩) u ⟨f₂, 0⟩

/-- The turns of the loop up to the end of the input. -/
inductive AccountsAll (g : Grammar) : Parser → List Event → List (List Token) → Parser → Prop where
  | finished {p : Parser} : p.feed.current.stage = .finished → AccountsAll g p [] [] p
  | turn {p q r : Parser} {e : Event} {u : List Token} {es : List Event}
      {us : List (List Token)} : Accounts g p e u q → AccountsAll g q es us r →
      AccountsAll g p (e :: es) (u :: us) r

theorem Accounts.stage {p q : Parser} {e : Event} {u : List Token} (h : g.Accounts p e u q) :
    p.feed.current.stage = e.stage := by
  cases h <;> assumption

theorem Accounts.depth {p q : Parser} {e : Event} {u : List Token} (h : g.Accounts p e u q) :
    q.depth = 0 := by
  cases h <;> rfl

theorem Derives.ne_nil {n : Nat} {u : List Token} (h : g.Derives .expression n u) : u ≠ [] := by
  obtain ⟨t, v, rfl, -⟩ := h.starts
  simp

theorem Constructs.ne_nil {kind : ConstructKind} {u : List Token} (h : g.Constructs kind u) :
    u ≠ [] := by
  cases h with
  | definition => simp
  | external => simp
  | expression hu => exact hu.ne_nil

theorem Accounts.delivers {p q : Parser} {e : Event} {u : List Token} (h : g.Accounts p e u q)
    {w : List Token} (hw : p.feed.Delivers w) :
    ∃ v, w = u ++ v ∧ q.feed.Delivers v ∧ (e.FailsAtEnd → q.feed.current.kind = .endOfInput) := by
  cases h with
  | separator hs ha =>
    have hk := Token.kind_ne_of_stage hs (by simp)
    obtain ⟨v, rfl, hv⟩ := hw.tail hk ha
    exact ⟨v, rfl, hv, False.elim⟩
  | success _ _ hp _ =>
    obtain ⟨v, rfl, hv⟩ := hw.after hp
    refine ⟨v, rfl, hv, ?_⟩
    intro h
    obtain ⟨d, t, hd, _⟩ := h
    cases hd
  | failure _ _ hp hk ha =>
    obtain ⟨v, rfl, hv⟩ := hw.after hp
    obtain ⟨v₁, rfl, hv₁⟩ := hv.tail hk ha
    refine ⟨v₁, by simp, hv₁, ?_⟩
    intro h
    obtain ⟨d, t, hd, ht, hkt⟩ := h
    cases hd
    cases ht
    exact absurd hkt hk
  | failureAtEnd _ _ hp hk ha =>
    obtain ⟨v, rfl, hv⟩ := hw.after hp
    obtain ⟨-, hv₁, hc⟩ := hv.of_finished hk ha
    exact ⟨v, rfl, hv₁, fun _ => hc ▸ hk⟩

theorem Accounts.head {p q : Parser} {e : Event} {u : List Token} (h : g.Accounts p e u q) :
    u.head? = some p.feed.current ∧ ∀ t ∈ u, t.kind ≠ .endOfInput := by
  cases h with
  | separator hs _ => exact ⟨rfl, by simpa using Token.kind_ne_of_stage hs (by simp)⟩
  | success _ _ hp hu =>
    refine ⟨?_, hp.kind_ne⟩
    obtain ⟨t, u, rfl⟩ := List.exists_cons_of_ne_nil hu.ne_nil
    obtain ⟨rfl, -⟩ := hp.head
    rfl
  | @failure f f₁ f₂ kind c u _ _ hp hk _ =>
    refine ⟨?_, ?_⟩
    · cases u with
      | nil => simp [hp.eq_of_nil]
      | cons t u =>
        obtain ⟨rfl, -⟩ := hp.head
        rfl
    · intro t ht
      obtain ht | ht := List.mem_append.1 ht
      · exact hp.kind_ne t ht
      · rw [List.mem_singleton.1 ht]
        exact hk
  | @failureAtEnd f f₁ f₂ kind c u hs _ hp hk _ =>
    refine ⟨?_, hp.kind_ne⟩
    cases u with
    | nil =>
      rw [hp.eq_of_nil] at hk
      exact absurd hk (Token.kind_ne_of_stage hs (by simp))
    | cons t u =>
      obtain ⟨rfl, -⟩ := hp.head
      rfl

theorem Accounts.ne_nil {p q : Parser} {e : Event} {u : List Token} (h : g.Accounts p e u q) :
    u ≠ [] := by
  intro hu
  have hhead := h.head.1
  simp [hu] at hhead

theorem accounts_construct {f : Feed} {w : List Token} (hw : f.Delivers w) {kind : ConstructKind}
    (hs : f.current.stage = .construct kind) :
    ∃ o q u, g.construct kind ⟨f, 0⟩ = .ok o q ∧ g.Accounts ⟨f, 0⟩ (.outcome o q) u q := by
  obtain ⟨node, u, f₁, ha, hp, hu, -⟩ | ⟨c, u, f₁, ha, hp⟩ := attempt_ends g kind hw
  · refine ⟨⟨kind, .ok node⟩, ⟨f₁, 0⟩, u, ?_, .success hs ha hp hu⟩
    simp only [construct, bind, EStateM.bind, ha]
    rfl
  · obtain ⟨v, -, hv⟩ := hw.after hp
    obtain ⟨f₂, ha₂⟩ := hv.advance_ok
    have hadvance : Parser.advance ⟨f₁, 0⟩ = .ok () ⟨f₂, 0⟩ := by
      simp only [Parser.advance, ha₂]
    have hc : g.construct kind ⟨f, 0⟩ = .ok ⟨kind, .error (.atToken f₁.current c)⟩ ⟨f₂, 0⟩ := by
      simp only [construct, bind, EStateM.bind, ha, Outcome.succeeded, Outcome.node?,
        Option.isSome_none, Bool.not_false, if_true, hadvance]
      rfl
    by_cases hk : f₁.current.kind = .endOfInput
    · exact ⟨_, _, u, hc, .failureAtEnd hs ha hp hk ha₂⟩
    · exact ⟨_, _, u ++ [f₁.current], hc, .failure hs ha hp hk ha₂⟩

/-- The loop comes to the end of the input: every turn takes a token, so there are turns enough. -/
theorem accountsAll_runWithin {n : Nat} {f : Feed} {w : List Token} (hw : f.Delivers w)
    (hn : w.length ≤ n) :
    (g.runWithin n ⟨f, 0⟩).fault = none ∧ ∃ us,
      g.AccountsAll ⟨f, 0⟩ (g.runWithin n ⟨f, 0⟩).events us (g.runWithin n ⟨f, 0⟩).final := by
  induction n generalizing f w with
  | zero =>
    have := List.length_pos_iff.2 hw.ne_nil
    omega
  | succ n ih =>
    have hturn : ∀ {e : Event} {u : List Token} {q : Parser}, g.Accounts ⟨f, 0⟩ e u q →
        (g.runWithin n q).fault = none ∧ ∃ us, g.AccountsAll ⟨f, 0⟩
          (e :: (g.runWithin n q).events) us (g.runWithin n q).final := by
      intro e u q ha
      obtain ⟨v, rfl, hv, -⟩ := ha.delivers hw
      have hpos := List.length_pos_iff.2 ha.ne_nil
      obtain ⟨f₁, d⟩ := q
      cases ha.depth
      rw [List.length_append] at hn
      obtain ⟨hf, us, hall⟩ := ih hv (by omega)
      exact ⟨hf, u :: us, .turn ha hall⟩
    cases hs : f.current.stage with
    | finished =>
      simp only [runWithin, hs]
      exact ⟨trivial, [], .finished hs⟩
    | separator =>
      obtain ⟨f₁, ha⟩ := hw.advance_ok
      simp only [runWithin, hs, Parser.advance, ha, Run.after]
      exact hturn (.separator hs ha)
    | construct kind =>
      obtain ⟨o, q, u, hc, ha⟩ := accounts_construct (g := g) hw hs
      simp only [runWithin, hs, hc, Run.after]
      exact hturn ha

theorem AccountsAll.delivers {p r : Parser} {es : List Event} {us : List (List Token)}
    (h : g.AccountsAll p es us r) {w : List Token} (hw : p.feed.Delivers w) :
    ∃ v, w = us.flatten ++ v ∧ r.feed.Delivers v ∧ r.feed.current.kind = .endOfInput := by
  induction h generalizing w with
  | finished hs => exact ⟨w, rfl, hw, Token.kind_of_stage hs⟩
  | turn ha _ ih =>
    obtain ⟨v, rfl, hv, -⟩ := ha.delivers hw
    obtain ⟨v₁, rfl, hv₁, hk⟩ := ih hv
    exact ⟨v₁, by simp, hv₁, hk⟩

theorem AccountsAll.stages {p r : Parser} {es : List Event} {us : List (List Token)}
    (h : g.AccountsAll p es us r) :
    us.map (fun u => u.head?.map Token.stage) = es.map (fun e => some e.stage) := by
  induction h with
  | finished => rfl
  | turn ha _ ih => rw [List.map_cons, List.map_cons, ih, ha.head.1, Option.map_some, ha.stage]

theorem AccountsAll.kind_ne {p r : Parser} {es : List Event} {us : List (List Token)}
    (h : g.AccountsAll p es us r) : ∀ u ∈ us, u ≠ [] ∧ ∀ t ∈ u, t.kind ≠ .endOfInput := by
  induction h with
  | finished => simp
  | turn ha _ ih => exact List.forall_mem_cons.2 ⟨⟨ha.ne_nil, ha.head.2⟩, ih⟩

theorem AccountsAll.length_eq {p r : Parser} {es : List Event} {us : List (List Token)}
    (h : g.AccountsAll p es us r) : es.length = us.length := by
  have hl := congrArg List.length h.stages
  simpa using hl.symm

theorem AccountsAll.length_le {p r : Parser} {es : List Event} {us : List (List Token)}
    (h : g.AccountsAll p es us r) : es.length ≤ us.flatten.length := by
  induction h with
  | finished => simp
  | turn ha _ ih =>
    have hpos := List.length_pos_iff.2 ha.ne_nil
    simp only [List.length_cons, List.flatten_cons, List.length_append]
    omega

theorem AccountsAll.failsAtEnd {p r : Parser} {before after : List Event} {e : Event}
    {us : List (List Token)} (h : g.AccountsAll p (before ++ e :: after) us r)
    (he : e.FailsAtEnd) {w : List Token} (hw : p.feed.Delivers w) : after = [] := by
  induction before generalizing p us w with
  | nil =>
    cases h with
    | turn ha hall =>
      obtain ⟨v, rfl, hv, hk⟩ := ha.delivers hw
      cases hall with
      | finished => rfl
      | turn ha' _ =>
        have hne := ha'.head.2 _ (List.mem_of_mem_head? ha'.head.1)
        exact absurd (hk he) hne
  | cons e' before ih =>
    cases h with
    | turn ha hall =>
      obtain ⟨v, rfl, hv, -⟩ := ha.delivers hw
      exact ih hall hv

end Grammar

/-- The loop at top level comes to the end of every text, and what happens on it takes the tokens
in order, none left out and none used twice. -/
theorem Setup.run_accounts (setup : Setup) (g : Grammar) (hg : setup.grammar = .ok g)
    (text : String) :
    ∃ p run us finish, setup.parser (.ofText text) = .ok (g, p) ∧
      setup.run (.ofText text) = .ok run ∧ run.fault = none ∧
      run.final.feed.current.kind = .endOfInput ∧
      g.AccountsAll p run.events us run.final ∧
      lex text = us.flatten ++ [.endOfInput finish] ∧
      us.map (fun u => u.head?.map Token.stage) = run.events.map (fun e => some e.stage) ∧
      (∀ u ∈ us, u ≠ [] ∧ ∀ t ∈ u, t.kind ≠ .endOfInput) ∧
      run.events.length = us.length ∧ run.events.length < (lex text).length ∧
      ∀ before e after, run.events = before ++ e :: after → e.FailsAtEnd → after = [] := by
  obtain ⟨f, hp, hw⟩ := parser_ok hg text
  obtain ⟨hf, us, hall⟩ := Grammar.accountsAll_runWithin (g := g) hw hw.length_le
  obtain ⟨v, hv, hr, hk⟩ := hall.delivers hw
  obtain ⟨finish, rfl⟩ := hr.eq_of_finished hk
  refine ⟨⟨f, 0⟩, g.run ⟨f, 0⟩, us, finish, hp, ?_, hf, hk, hall, hv, hall.stages, hall.kind_ne,
    hall.length_eq, ?_, ?_⟩
  · simp only [run, hp]
    rfl
  · have hle := hall.length_le
    rw [hv, List.length_append, List.length_singleton]
    exact Nat.lt_succ_of_le hle
  · intro before e after he hfail
    have hall' : g.AccountsAll ⟨f, 0⟩ (g.run ⟨f, 0⟩).events us (g.run ⟨f, 0⟩).final := hall
    rw [he] at hall'
    exact hall'.failsAtEnd hfail hw

theorem run_accounts_unmatched :
    let setup : Setup := { maxDepth := 0 }
    setup.grammar = .ok { maxDepth := 0 } ∧
      ∃ (run : Run) (us : List (List Token)) (finish : Position),
      setup.run (.ofText ");(") = .ok run ∧ run.final.feed.current.kind = .endOfInput ∧
      lex ");(" = us.flatten ++ [.endOfInput finish] ∧ run.events.length = us.length := by
  intro setup
  obtain ⟨p, run, us, finish, -, hr, -, hk, -, hl, -, -, hlen, -⟩ :=
    Setup.run_accounts setup { maxDepth := 0 } rfl ");("
  exact ⟨rfl, run, us, finish, hr, hk, hl, hlen⟩

end Kaleidoscope
