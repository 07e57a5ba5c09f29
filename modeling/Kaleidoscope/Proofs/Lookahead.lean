import Kaleidoscope.Proofs.Viability

/-! Rules look no further ahead than the current token. A complaint is settled by what has been
passed and by the token that is complained of: a feed that fails right behind that token cannot be
told in time from one that goes on. So if the tokens were the beginning of a construct after all,
the rule would complain of a construct. -/

set_option autoImplicit false

namespace Kaleidoscope

namespace Feed

def cons (t : Token) (f : Feed) : Feed := ⟨t, 0, .token f.current f.taken :: f.upcoming, f.finish⟩

/-- The tokens first, and then what the feed gives. -/
def prepend (u : List Token) (f : Feed) : Feed := u.foldr cons f

/-- Stands on the token and fails behind it. -/
def failing (t : Token) : Feed := ⟨t, 0, [.fault .unreadable 0], ⟨{}, 0⟩⟩

def ended : Feed := ⟨.endOfInput {}, 0, [], ⟨{}, 0⟩⟩

theorem passes_prepend {u : List Token} (h : ∀ t ∈ u, t.kind ≠ .endOfInput) (f : Feed) :
    (prepend u f).Passes u f := by
  induction u with
  | nil => exact .here
  | cons t u ih =>
    obtain ⟨ht, hu⟩ := List.forall_mem_cons.1 h
    exact .token (f := cons t (prepend u f)) ht rfl (ih hu)

/-- The second feed gives what the first gives until that has `n` deliveries left, and then it
fails. -/
inductive Until (n : Nat) : Feed → Feed → Prop where
  | last {f f' f₁' : Feed} : f'.current = f.current → f.current.kind ≠ .endOfInput → f.size = n →
      f'.advance = .error .unreadable f₁' → Until n f f'
  | token {f f' f₁ f₁' : Feed} : f'.current = f.current → f.advance = .ok () f₁ →
      f'.advance = .ok () f₁' → Until n f₁ f₁' → Until n f f'

theorem Until.current_eq {n : Nat} {f f' : Feed} (h : f.Until n f') : f'.current = f.current := by
  cases h <;> assumption

theorem Passes.until {f f₁ : Feed} {u : List Token} (h : f.Passes u f₁)
    (hk : f₁.current.kind ≠ .endOfInput) :
    f.Until f₁.size (prepend u (failing f₁.current)) := by
  induction h with
  | here => exact .last rfl hk rfl rfl
  | token _ ha _ ih => exact .token rfl ha rfl (ih hk)

end Feed

def Accord.until (n : Nat) : Accord where
  pairs := Feed.Until n
  known _ := True
  past f := f.size < n
  breaks e := e = .fault .unreadable
  current_eq := fun h => h.current_eq
  current_known := fun _ => trivial
  pairs_advance := by
    intro f f' h
    cases h with
    | last _ hk hn ha =>
      rw [ha]
      exact .broken (hn ▸ Feed.size_advance_lt hk) rfl
    | token _ ha ha' h =>
      rw [ha, ha']
      exact .ok h rfl
  past_advance := fun f h => Nat.lt_of_le_of_lt (Feed.size_advance_le f) h

theorem IsPrototype.kind_ne {u : List Token} (h : IsPrototype u) :
    ∀ t ∈ u, t.kind ≠ .endOfInput := by
  obtain ⟨hn, ho, hps, hc⟩ := h
  simp only [List.forall_mem_cons, List.forall_mem_append]
  exact ⟨by simp [hn], Token.kind_ne_of_isChar ho, fun t ht => by simp [hps t ht],
    Token.kind_ne_of_isChar hc, by simp⟩

theorem Rule.eq_error_of_attempt {x : Rule Node} {p q : Parser} {d : Diagnostic}
    (h : x.attempt p = .ok (.error d) q) (hd : d.complaint ≠ .tooDeep) :
    x p = .error (.diagnostic d) q := by
  unfold attempt at h
  split at h
  · cases h
  · next hx => cases h; exact hx
  · cases h; exact absurd rfl hd
  · cases h

namespace Grammar

variable {g : Grammar} {kind : ConstructKind} {u : List Token}

theorem rule_failing {f f₁ : Feed} {c : Diagnostic} (hp : f.Passes u f₁)
    (hk : f₁.current.kind ≠ .endOfInput)
    (hr : g.rule kind ⟨f, 0⟩ = .error (.diagnostic c) ⟨f₁, 0⟩) :
    ∃ q, g.rule kind ⟨.prepend u (.failing f₁.current), 0⟩ = .error (.diagnostic c) q := by
  have ht := (Accord.tracked_rule (A := .until f₁.size) (g.ranksAlike_refl _) kind).tracks
    ⟨f, 0⟩ ⟨.prepend u (.failing f₁.current), 0⟩ ⟨hp.until hk, rfl⟩
  rw [hr] at ht
  generalize g.rule kind ⟨.prepend u (.failing f₁.current), 0⟩ = r at ht
  cases ht with
  | error _ => exact ⟨_, rfl⟩
  | broken hpast _ => exact absurd hpast (Nat.lt_irrefl _)

/-- What a rule complains of is the same on all feeds that give the same tokens up to the one that
is complained of. -/
theorem rule_complains {f f₁ f' f₁' : Feed} {c : Diagnostic} (hp : f.Passes u f₁)
    (hp' : f'.Passes u f₁') (hc : f₁'.current = f₁.current) (hk : f₁.current.kind ≠ .endOfInput)
    (hr : g.rule kind ⟨f, 0⟩ = .error (.diagnostic c) ⟨f₁, 0⟩) :
    ∃ q, g.rule kind ⟨f', 0⟩ = .error (.diagnostic c) q := by
  obtain ⟨q, hq⟩ := rule_failing hp hk hr
  rw [← hc] at hq hk
  have ht := (Accord.tracked_rule (A := .until f₁'.size) (g.ranksAlike_refl _) kind).tracks
    ⟨f', 0⟩ ⟨.prepend u (.failing f₁'.current), 0⟩ ⟨hp'.until hk, rfl⟩
  rw [hq] at ht
  generalize g.rule kind ⟨f', 0⟩ = r at ht
  cases ht with
  | error _ => exact ⟨_, rfl⟩
  | broken _ hb => cases hb

theorem Derives.kind_ne {s : Symbol} {n : Nat} (h : g.Derives s n u) :
    ∀ t ∈ u, t.kind ≠ .endOfInput := by
  induction h with
  | expression _ _ ihu ihv => exact List.forall_mem_append.2 ⟨ihu, ihv⟩
  | operator hl _ _ ihu ihv =>
    exact List.forall_mem_cons.2 ⟨kind_ne_of_level_pos hl, List.forall_mem_append.2 ⟨ihu, ihv⟩⟩
  | number hk _ => simp [hk]
  | «variable» hk => simp [hk]
  | call hn ho _ hc ih =>
    simp only [List.forall_mem_cons, List.forall_mem_append]
    exact ⟨by simp [hn], Token.kind_ne_of_isChar ho, ih, Token.kind_ne_of_isChar hc, by simp⟩
  | parenthesized ho _ hc ih =>
    simp only [List.forall_mem_cons, List.forall_mem_append]
    exact ⟨Token.kind_ne_of_isChar ho, ih, Token.kind_ne_of_isChar hc, by simp⟩
  | argument _ _ ihu ihv => exact List.forall_mem_append.2 ⟨ihu, ihv⟩
  | comma hc _ _ ihu ihv =>
    exact List.forall_mem_cons.2 ⟨Token.kind_ne_of_isChar hc, List.forall_mem_append.2 ⟨ihu, ihv⟩⟩
  | noOperator => simp
  | noArgument => simp
  | lastArgument => simp

theorem Constructs.kind_ne (h : g.Constructs kind u) : ∀ t ∈ u, t.kind ≠ .endOfInput := by
  cases h with
  | definition hd hu hv _ =>
    exact List.forall_mem_cons.2
      ⟨by simp [hd], List.forall_mem_append.2 ⟨hu.kind_ne, hv.kind_ne⟩⟩
  | external hx hu => exact List.forall_mem_cons.2 ⟨by simp [hx], hu.kind_ne⟩
  | expression hu _ => exact hu.kind_ne

theorem Derives.limitedTo {s : Symbol} {n : Nat} (h : g.Derives s n u) (limit : Int) :
    (g.limitedTo limit).Derives s n u := by
  induction h with
  | expression _ _ ihu ihv => exact .expression ihu ihv
  | noOperator => exact .noOperator
  | operator hl _ _ ihu ihv => exact .operator hl ihu ihv
  | number hk hp => exact .number hk hp
  | «variable» hk => exact .variable hk
  | call hn ho _ hc ih => exact .call hn ho ih hc
  | parenthesized ho _ hc ih => exact .parenthesized ho ih hc
  | noArgument => exact .noArgument
  | argument _ _ ihu ihv => exact .argument ihu ihv
  | lastArgument => exact .lastArgument
  | comma hc _ _ ihu ihv => exact .comma hc ihu ihv

theorem Constructs.limitedTo (h : g.Constructs kind u) {limit : Int} (hl : g.maxDepth ≤ limit) :
    (g.limitedTo limit).Constructs kind u := by
  cases h with
  | definition hd hu hv hn => exact .definition hd hu (hv.limitedTo limit) (Int.le_trans hn hl)
  | external hx hu => exact .external hx hu
  | expression hu hn => exact .expression (hu.limitedTo limit) (Int.le_trans hn hl)

theorem closes_ended (g : Grammar) (kind : ConstructKind) (u : List Token) :
    g.Closes kind u Feed.ended.current := by
  have hd : g.Delimits .expression u Feed.ended.current :=
    ⟨by simp [level, Feed.ended, Token.endOfInput], openName_of_isChar rfl⟩
  cases kind with
  | definition => exact hd
  | external => trivial
  | expression => exact hd

/-- Of what is accepted, the rule does not complain on any feed that begins with it. -/
theorem Constructs.not_complains (hg : g.precedence.Excludes ['(', ')', ',']) {t : Token}
    {v : List Token} (h : g.Constructs kind (u ++ t :: v)) {f f₁ : Feed} {c : Diagnostic}
    (hp : f.Passes u f₁) (ht : f₁.current = t) :
    g.rule kind ⟨f, 0⟩ ≠ .error (.diagnostic c) ⟨f₁, 0⟩ := by
  intro hr
  have hpass := Feed.passes_prepend h.kind_ne .ended
  obtain ⟨f₂, hpu, hpv⟩ := hpass.split
  obtain ⟨hcur, hk, -⟩ := hpv.head
  obtain ⟨q, hq⟩ := rule_complains hp hpu (hcur.trans ht.symm) (ht ▸ hk) hr
  obtain ⟨n, hn⟩ := h.accepted hg hpass (g.closes_ended kind _)
  cases hq.symm.trans hn

/-- Errors come as early as they can. An attempt that fails, and not on too deep a nesting, stands
on the token that it complains of. What it has passed begins a construct of the kind within the
limit, and with that token it does not begin one, whatever the limit. -/
theorem attempt_error_earliest (g : Grammar) (hg : g.precedence.Excludes ['(', ')', ','])
    (hM : 1 ≤ g.maxDepth) (kind : ConstructKind) (p : Parser) (hd : p.depth = 0) (d : Diagnostic)
    (q : Parser) (ha : (g.rule kind).attempt p = .ok (.error d) q)
    (hm : d.message ≠ Complaint.tooDeep.message) :
    ∃ u t, p.feed.Passes u q.feed ∧ q.feed.current = t ∧ d.token = some t ∧
      d.position = t.start ∧
      (∃ v, (∀ s ∈ v, s.Occurs) ∧ g.Constructs kind (u ++ v)) ∧
      ∀ limit v, ¬ (g.limitedTo limit).Constructs kind (u ++ t :: v) := by
  obtain ⟨f, _⟩ := p
  simp only at hd
  subst hd
  have hc : d.complaint ≠ .tooDeep := fun hc => hm (congrArg Complaint.message hc)
  have hr := Rule.eq_error_of_attempt ha hc
  have hends := ends_rule (g := g) (f := f) kind
  rw [hr] at hends
  cases hends with
  | @complaint _ _ f₁ _ =>
    obtain ⟨u, hp, hu⟩ := stalls_rule (f := f) hM kind _ _ hr hc
    refine ⟨u, f₁.current, hp, rfl, rfl, rfl, hu, fun limit v h => ?_⟩
    let top := max g.maxDepth limit
    have hlong : (g.limitedTo top).Constructs kind (u ++ f₁.current :: v) :=
      h.limitedTo (Int.le_max_right _ _)
    have hle : g.maxDepth ≤ top := Int.le_max_left _ _
    obtain hover | heq := outlasts_rule hle kind ⟨f, 0⟩
    · rw [hr] at hover
      cases hover with
      | tooDeep hdeep => exact hc hdeep
    · exact hlong.not_complains (g := g.limitedTo top) hg hp rfl (heq.trans hr)

theorem error_earliest_unseparated :
    let g : Grammar := { maxDepth := 3 }
    let name (s : String) : Token := { kind := .identifier, payload := .text s, text := s }
    let char (s : String) : Token := { kind := .character, payload := .text s, text := s }
    let p : Parser := ⟨⟨char "(", 1, [.token (name "f") 2, .token (char "(") 3,
      .token (name "x") 4, .token (name "y") 6, .token (char ")") 7], ⟨{}, 7⟩⟩, 0⟩
    let u := [char "(", name "f", char "(", name "x"]
    g.precedence.Excludes ['(', ')', ','] ∧ 1 ≤ g.maxDepth ∧ p.depth = 0 ∧
      ∃ d q, (g.rule .expression).attempt p = .ok (.error d) q ∧
        d.message ≠ Complaint.tooDeep.message ∧ p.feed.Passes u q.feed ∧
        d.token = some (name "y") ∧ (∃ v, g.Constructs .expression (u ++ v)) ∧
        ∀ limit v, ¬ (g.limitedTo limit).Constructs .expression (u ++ name "y" :: v) := by
  intro g name char p u
  have hw : p.feed.Delivers (u ++ [name "y", char ")", .endOfInput {}]) :=
    .token (by decide) rfl <| .token (by decide) rfl <| .token (by decide) rfl <|
      .token (by decide) rfl <| .token (by decide) rfl <| .token (by decide) rfl <|
      .finished rfl rfl
  have hg : g.precedence.Excludes ['(', ')', ','] := by decide
  let q : Parser := ⟨⟨name "y", 6, [.token (char ")") 7], ⟨{}, 7⟩⟩, 0⟩
  let d : Diagnostic := .atToken (name "y") .unclosedArguments
  have ha : (g.rule .expression).attempt p = .ok (.error d) q := rfl
  obtain ⟨u', t, hp', rfl, ht, -, ⟨v, -, hv⟩, hn⟩ :=
    attempt_error_earliest g hg (by decide) .expression p rfl d q ha (by decide)
  have hu : p.feed.Passes u q.feed :=
    .token (by decide) rfl <| .token (by decide) rfl <| .token (by decide) rfl <|
      .token (by decide) rfl .here
  rw [hw.eq_of_passes hp' hu] at hv hn
  exact ⟨hg, by decide, rfl, d, q, ha, by decide, hu, ht, ⟨v, hv⟩, hn⟩

end Grammar

end Kaleidoscope
