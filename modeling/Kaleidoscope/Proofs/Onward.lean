import Kaleidoscope.Proofs.Accounting
import Kaleidoscope.Proofs.Climbing

/-! Rules move a feed on, and do nothing else to it: wherever a rule ends, the feed has got there by
advances, good ones or failed ones. So a rule keeps what every advance keeps, and its loops, which
take a token on each turn, do not depend on how many turns they are given. -/

set_option autoImplicit false

namespace Kaleidoscope

def endState {ε σ α : Type} : EStateM.Result ε σ α → σ
  | .ok _ s => s
  | .error _ s => s

/-- The second feed is reached from the first by advances. -/
inductive Feed.Leads : Feed → Feed → Prop where
  | here {f : Feed} : Leads f f
  | step {f f₁ : Feed} : Leads (endState f.advance) f₁ → Leads f f₁

namespace Feed

variable {f f₁ f₂ : Feed}

theorem Leads.trans (h : Leads f f₁) (h' : Leads f₁ f₂) : Leads f f₂ := by
  induction h with
  | here => exact h'
  | step _ ih => exact .step (ih h')

theorem Leads.keeps {P : Feed → Prop} (hP : ∀ f, P f → P (endState f.advance))
    (h : Leads f f₁) (hf : P f) : P f₁ := by
  induction h with
  | here => exact hf
  | step _ ih => exact ih (hP _ hf)

theorem size_advance_le (f : Feed) : (endState f.advance).size ≤ f.size := by
  cases ha : f.advance with
  | ok _ f₁ => exact size_le_of_advance ha
  | error e f₁ =>
    unfold advance at ha
    split at ha
    · cases ha
    · cases ha
    · next hu =>
      cases ha
      simp only [endState, size, hu, List.length_cons]
      exact Nat.add_le_add_right (Nat.le_succ _) _

theorem size_advance_lt (hk : f.current.kind ≠ .endOfInput) :
    (endState f.advance).size < f.size := by
  cases ha : f.advance with
  | ok _ f₁ => exact size_lt_of_advance hk ha
  | error e f₁ =>
    unfold advance at ha
    split at ha
    · cases ha
    · cases ha
    · next hu =>
      cases ha
      simp only [endState, size, hu, List.length_cons]
      exact Nat.add_lt_add_right (Nat.lt_succ_self _) _

theorem Passes.size_advance_lt {u : List Token} (h : f.Passes u f₁)
    (hk : f.current.kind ≠ .endOfInput) : (endState f₁.advance).size < f.size := by
  cases u with
  | nil =>
    rw [h.eq_of_nil]
    exact Feed.size_advance_lt hk
  | cons t u =>
    have hs := h.size_le
    have hs' := size_advance_le f₁
    rw [List.length_cons] at hs
    omega

theorem Leads.size_le (h : Leads f f₁) : f₁.size ≤ f.size :=
  h.keeps (P := fun f' => f'.size ≤ f.size)
    (fun f' hf => Nat.le_trans (size_advance_le f') hf) (Nat.le_refl _)

end Feed

namespace Rule

variable {α β : Type}

/-- The rule only moves the feed on. -/
def Onward (x : Rule α) : Prop := ∀ p : Parser, p.feed.Leads (endState (x p)).feed

theorem onward_pure (a : α) : Onward (pure a) := fun _ => .here

theorem onward_fail (c : Complaint) : Onward (fail c : Rule α) := fun _ => .here

theorem Onward.bind {x : Rule α} {k : α → Rule β} (hx : Onward x) (hk : ∀ a, Onward (k a)) :
    Onward (x >>= k) := by
  intro p
  have h := hx p
  cases hr : x p with
  | ok a q =>
    rw [hr] at h
    rw [bind_ok hr]
    exact h.trans (hk a q)
  | error e q =>
    rw [hr] at h
    rw [bind_error hr]
    exact h

theorem onward_current_bind {k : Token → Rule β} (h : ∀ t, Onward (k t)) :
    Onward (current >>= k) := fun p => h p.feed.current p

theorem onward_turns_bind {k : Nat → Rule β} (h : ∀ n, Onward (k n)) :
    Onward (turns >>= k) := fun p => h (p.feed.size + 1) p

theorem onward_advance : Onward advance := by
  intro p
  refine .step ?_
  cases ha : p.feed.advance with
  | ok _ f₁ => rw [advance_ok ha]; exact .here
  | error e f₁ => rw [advance_error ha]; exact .here

theorem Onward.nested {x : Rule α} (hx : Onward x) : Onward (nested x) := by
  intro p
  have h := hx { p with depth := p.depth + 1 }
  simp only [Rule.nested]
  cases hr : x { p with depth := p.depth + 1 } with
  | ok a q => rw [hr] at h; exact h
  | error e q => rw [hr] at h; exact h

theorem Onward.size_le {x : Rule α} (hx : Onward x) {p q : Parser} {a : α} (h : x p = .ok a q) :
    q.feed.size ≤ p.feed.size := by
  have hl := (hx p).size_le
  rw [h] at hl
  exact hl

theorem endState_attempt (x : Rule Node) (p : Parser) :
    endState (x.attempt p) = endState (x p) := by
  simp only [attempt]
  cases x p with
  | ok a q => rfl
  | error e q =>
    cases e with
    | diagnostic d => rfl
    | fault f => cases f <;> rfl

/-- The loop comes to the same for all numbers of turns that are larger than the feed. -/
def Turning (k : Nat → Rule α) : Prop :=
  ∀ p n n', p.feed.size < n → p.feed.size < n' → k n p = k n' p

theorem Turning.bind {k : Nat → Rule α} (h : Turning k) (next : α → Rule β) :
    Turning fun n => k n >>= next := fun p n n' hn hn' => bind_of_eq (h p n n' hn hn')

theorem turning_argumentsWithin {e : Rule Node} (he : Onward e) : Turning (argumentsWithin e) := by
  intro p n n' hn hn'
  induction n generalizing n' p with
  | zero => omega
  | succ n ih =>
    obtain ⟨n', rfl⟩ := Nat.exists_eq_add_one.2 (show 0 < n' by omega)
    refine bind_congr fun arg q hq => ?_
    have hs := he.size_le hq
    obtain ⟨f, d⟩ := q
    simp only [current_bind]
    split
    · rfl
    · split
      · next hc =>
        have hk := Token.kind_ne_of_isChar hc
        refine bind_congr fun _ q hq => ?_
        cases ha : f.advance with
        | error e f₁ => rw [advance_error ha] at hq; cases hq
        | ok _ f₁ =>
          rw [advance_ok ha] at hq
          cases hq
          have hlt := Feed.size_lt_of_advance hk ha
          simp only at hs
          exact bind_of_eq (ih ⟨f₁, d⟩ n' (by simp only; omega) (by simp only; omega))
      · rfl

theorem length_upcoming_lt {f f₁ : Feed} (h : f.advance = .ok () f₁)
    (hk : f₁.current.kind ≠ .endOfInput) : f₁.upcoming.length < f.upcoming.length := by
  unfold Feed.advance at h
  split at h
  · cases h; exact absurd rfl hk
  · next hu => cases h; simp [hu]
  · cases h

theorem turning_parametersWithin : Turning parametersWithin := by
  -- Before the first turn the feed may be no larger than what is upcoming, so that is counted.
  have hturn : ∀ n n' (f : Feed) d, f.upcoming.length < n → f.upcoming.length < n' →
      parametersWithin n ⟨f, d⟩ = parametersWithin n' ⟨f, d⟩ := by
    intro n
    induction n with
    | zero => intros; omega
    | succ n ih =>
      intro n' f d hn hn'
      obtain ⟨n', rfl⟩ := Nat.exists_eq_add_one.2 (show 0 < n' by omega)
      refine bind_congr fun _ q hq => ?_
      cases ha : f.advance with
      | error e f₁ => rw [advance_error ha] at hq; cases hq
      | ok _ f₁ =>
        rw [advance_ok ha] at hq
        cases hq
        simp only [current_bind]
        split
        · next hk =>
          have hlt := length_upcoming_lt ha (by rw [hk]; decide)
          exact bind_of_eq (ih n' f₁ d (by omega) (by omega))
        · rfl
  intro p n n' hn hn'
  have hle : p.feed.upcoming.length ≤ p.feed.size := Nat.le_add_right _ _
  exact hturn n n' p.feed p.depth (by omega) (by omega)

end Rule

def Event.parser : Event → Parser
  | .separator p => p
  | .outcome _ p => p

namespace Grammar

open Rule

theorem onward_linksWithin (g : Grammar) {operand : Rule Node} (ho : Onward operand) (least : Int)
    (n : Nat) : Onward (g.linksWithin operand least n) := by
  induction n with
  | zero => exact onward_pure _
  | succ n ih =>
    refine onward_current_bind fun t => ?_
    simp only
    split
    · exact onward_pure _
    · exact onward_advance.bind fun _ => ho.bind fun _ => ih.bind fun _ => onward_pure _

theorem turning_linksWithin (g : Grammar) {operand : Rule Node} (ho : Onward operand) :
    Turning (g.linksWithin operand 0) := fun _ _ _ hn hn' =>
  linksWithin_turns (Int.le_refl 0) (fun _ _ _ h => ho.size_le h) hn hn'

theorem parser_advance_leads (p : Parser) : p.feed.Leads (endState p.advance).feed := by
  refine .step ?_
  simp only [Parser.advance]
  cases p.feed.advance <;> exact .here

/-- How the loop at top level goes on behind a construct: a failure skips a token. -/
def resume (kind : ConstructKind) : Except Diagnostic Node → EStateM Fault Parser Outcome
  | .ok node => pure ⟨kind, .ok node⟩
  | .error d => do
    Parser.advance
    return ⟨kind, .error d⟩

theorem construct_eq (g : Grammar) (kind : ConstructKind) :
    g.construct kind = (g.rule kind).attempt >>= resume kind := by
  simp only [construct]
  congr
  funext r
  cases r <;> rfl

theorem resume_leads (kind : ConstructKind) (r : Except Diagnostic Node) (p : Parser) :
    p.feed.Leads (endState (resume kind r p)).feed := by
  cases r with
  | ok node => exact .here
  | error d =>
    have h := parser_advance_leads p
    cases hp : p.advance with
    | ok _ q => rw [hp] at h; rw [resume, bind_ok hp]; exact h
    | error e q => rw [hp] at h; rw [resume, bind_error hp]; exact h

theorem construct_leads {g : Grammar} {kind : ConstructKind} (h : Onward (g.rule kind))
    (p : Parser) : p.feed.Leads (endState (g.construct kind p)).feed := by
  have hx := h p
  rw [← endState_attempt] at hx
  rw [construct_eq]
  cases hr : (g.rule kind).attempt p with
  | ok r q => rw [hr] at hx; rw [bind_ok hr]; exact hx.trans (resume_leads kind r q)
  | error e q => rw [hr] at hx; rw [bind_error hr]; exact hx

theorem runWithin_leads {g : Grammar} (h : ∀ kind, Onward (g.rule kind)) (n : Nat) (p : Parser) :
    (∀ e ∈ (g.runWithin n p).events, p.feed.Leads e.parser.feed) ∧
      p.feed.Leads (g.runWithin n p).final.feed := by
  induction n generalizing p with
  | zero => exact ⟨by simp [runWithin], .here⟩
  | succ n ih =>
    cases hs : p.feed.current.stage with
    | finished =>
      simp only [runWithin, hs]
      exact ⟨by simp, .here⟩
    | separator =>
      have ha := parser_advance_leads p
      simp only [runWithin, hs]
      cases hp : p.advance with
      | ok _ q =>
        rw [hp] at ha
        obtain ⟨hes, hf⟩ := ih q
        exact ⟨List.forall_mem_cons.2 ⟨.here, fun e he => ha.trans (hes e he)⟩, ha.trans hf⟩
      | error e q =>
        rw [hp] at ha
        exact ⟨List.forall_mem_cons.2 ⟨.here, by simp⟩, ha⟩
    | construct kind =>
      have hc := construct_leads (h kind) p
      simp only [runWithin, hs]
      cases hp : g.construct kind p with
      | ok o q =>
        rw [hp] at hc
        obtain ⟨hes, hf⟩ := ih q
        exact ⟨List.forall_mem_cons.2 ⟨hc, fun e he => hc.trans (hes e he)⟩, hc.trans hf⟩
      | error e q =>
        rw [hp] at hc
        exact ⟨by simp, hc⟩

section Turns

variable {g : Grammar} {f : Feed}

theorem advance_of_resume {kind : ConstructKind} {d : Diagnostic} {o : Outcome} {q : Parser}
    (h : resume kind (.error d) ⟨f, 0⟩ = .ok o q) :
    ∃ f₁, f.advance = .ok () f₁ ∧ q = ⟨f₁, 0⟩ := by
  simp only [resume, bind, EStateM.bind, Parser.advance] at h
  cases ha : f.advance with
  | ok _ f₁ =>
    rw [ha] at h
    cases h
    exact ⟨f₁, rfl, rfl⟩
  | error e f₁ =>
    rw [ha] at h
    cases h

theorem size_lt_of_construct (hk : f.current.kind ≠ .endOfInput) {kind : ConstructKind}
    {o : Outcome} {q : Parser} (h : g.construct kind ⟨f, 0⟩ = .ok o q) :
    ∃ f₁, q = ⟨f₁, 0⟩ ∧ f₁.size < f.size := by
  have hends := ends_rule (g := g) (f := f) kind
  rw [construct_eq] at h
  simp only [bind, EStateM.bind, attempt] at h
  generalize g.rule kind ⟨f, 0⟩ = r at hends h
  cases hends with
  | @ok a u f₁ hp hu =>
    cases h
    have hs := hp.size_le
    have hpos := List.length_pos_iff.2 hu.1.ne_nil
    exact ⟨f₁, rfl, by omega⟩
  | complaint hp =>
    obtain ⟨f₂, ha, rfl⟩ := advance_of_resume h
    have hs := hp.size_advance_lt hk
    rw [ha] at hs
    exact ⟨f₂, rfl, hs⟩
  | @fault e u f₁ f₂ hp ha =>
    have hs := hp.size_advance_lt hk
    rw [ha] at hs
    cases e with
    | exhausted =>
      obtain ⟨f₃, ha', rfl⟩ := advance_of_resume h
      have hs' := Feed.size_le_of_advance ha'
      exact ⟨f₃, rfl, Nat.lt_of_le_of_lt hs' hs⟩
    | interrupted => cases h
    | unreadable => cases h

theorem runWithin_turns {n n' : Nat} (hn : f.size < n) (hn' : f.size < n') :
    g.runWithin n ⟨f, 0⟩ = g.runWithin n' ⟨f, 0⟩ := by
  induction n generalizing n' f with
  | zero => omega
  | succ n ih =>
    obtain ⟨n', rfl⟩ := Nat.exists_eq_add_one.2 (show 0 < n' by omega)
    cases hs : f.current.stage with
    | finished => simp only [runWithin, hs]
    | separator =>
      have hk := Token.kind_ne_of_stage hs (by simp)
      simp only [runWithin, hs, Parser.advance]
      cases ha : f.advance with
      | ok _ f₁ =>
        have hlt := Feed.size_lt_of_advance hk ha
        simp only [ih (f := f₁) (show f₁.size < n by omega) (show f₁.size < n' by omega)]
      | error e f₁ => rfl
    | construct kind =>
      have hk := Token.kind_ne_of_stage hs (by simp)
      simp only [runWithin, hs]
      cases hc : g.construct kind ⟨f, 0⟩ with
      | ok o q =>
        obtain ⟨f₁, rfl, hlt⟩ := size_lt_of_construct hk hc
        simp only [ih (f := f₁) (show f₁.size < n by omega) (show f₁.size < n' by omega)]
      | error e q => rfl

end Turns

end Grammar

end Kaleidoscope
