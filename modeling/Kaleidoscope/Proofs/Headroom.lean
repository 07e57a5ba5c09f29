import Kaleidoscope.Proofs.Causality
import Kaleidoscope.Proofs.Ranking

/-! Room for deeper nesting. A rule that does not complain of too deep a nesting never comes to the
limit, so it does the same under any higher one; and so does a run on which nothing is too deep. -/

set_option autoImplicit false

namespace Kaleidoscope

def Outcome.message? (o : Outcome) : Option String :=
  match o.result with
  | .ok _ => none
  | .error d => some d.message

namespace Rule

variable {α β : Type}

/-- The rule has come to the limit. -/
inductive Overruns : EStateM.Result Stop Parser α → Prop where
  | tooDeep {d : Diagnostic} {q : Parser} : d.complaint = .tooDeep →
      Overruns (.error (.diagnostic d) q)

/-- The second rule does what the first does, unless the first comes to the limit. -/
def Outlasts (x y : Rule α) : Prop := ∀ p, Overruns (x p) ∨ y p = x p

theorem outlasts_refl (x : Rule α) : Outlasts x x := fun _ => .inr rfl

theorem Outlasts.bind {x y : Rule α} {k l : α → Rule β} (hx : Outlasts x y)
    (hk : ∀ a, Outlasts (k a) (l a)) : Outlasts (x >>= k) (y >>= l) := by
  intro p
  obtain ho | he := hx p
  · generalize hr : x p = r at ho
    cases ho with
    | tooDeep hd =>
      rw [bind_error hr]
      exact .inl (.tooDeep hd)
  · cases hr : x p with
    | ok a q =>
      rw [bind_ok hr, bind_ok (he.trans hr)]
      exact hk a q
    | error e q =>
      rw [bind_error hr, bind_error (he.trans hr)]
      exact .inr rfl

theorem Outlasts.bind_left {x y : Rule α} (hx : Outlasts x y) (k : α → Rule β) :
    Outlasts (x >>= k) (y >>= k) := hx.bind fun a => outlasts_refl (k a)

theorem outlasts_bind (x : Rule α) {k l : α → Rule β} (hk : ∀ a, Outlasts (k a) (l a)) :
    Outlasts (x >>= k) (x >>= l) := (outlasts_refl x).bind hk

theorem Outlasts.nested {x y : Rule α} (hx : Outlasts x y) : Outlasts (nested x) (nested y) := by
  intro p
  obtain ho | he := hx { p with depth := p.depth + 1 }
  · simp only [Rule.nested]
    generalize x _ = r at ho
    cases ho with
    | tooDeep hd => exact .inl (.tooDeep hd)
  · exact .inr (by simp only [Rule.nested, he])

theorem outlasts_demand {c : Prop} [Decidable c] (complaint : Complaint) {k l : Unit → Rule β}
    (h : Outlasts (k ()) (l ())) :
    Outlasts (if c then fail complaint >>= k else k ())
      (if c then fail complaint >>= l else l ()) := by
  split
  · exact fun _ => .inr rfl
  · exact h

section Operands

variable {e e' : Rule Node}

theorem Outlasts.parenthesized (he : Outlasts e e') :
    Outlasts (parenthesized e) (parenthesized e') :=
  outlasts_bind _ fun _ => he.bind_left _

theorem Outlasts.argumentsWithin (he : Outlasts e e') (n : Nat) :
    Outlasts (argumentsWithin e n) (argumentsWithin e' n) := by
  induction n with
  | zero => exact outlasts_refl _
  | succ n ih =>
    refine he.bind fun arg => outlasts_bind current fun t => ?_
    split
    · exact outlasts_refl _
    · split
      · exact outlasts_bind _ fun _ => ih.bind_left _
      · exact outlasts_refl _

theorem Outlasts.arguments (he : Outlasts e e') : Outlasts (arguments e) (arguments e') := by
  refine outlasts_bind current fun t => ?_
  split
  · exact outlasts_refl _
  · exact outlasts_bind turns fun n => he.argumentsWithin n

theorem Outlasts.identifier (he : Outlasts e e') : Outlasts (identifier e) (identifier e') := by
  refine outlasts_bind take fun name => outlasts_bind current fun t => ?_
  split
  · exact outlasts_bind _ fun _ => he.arguments.bind_left _
  · exact outlasts_refl _

theorem Outlasts.primary (he : Outlasts e e') : Outlasts (primary e) (primary e') := by
  refine outlasts_bind current fun t => ?_
  split
  · exact he.identifier
  · exact outlasts_refl _
  · split
    · exact he.parenthesized
    · exact outlasts_refl _

end Operands

theorem Outlasts.attempt {x y : Rule Node} (h : Outlasts x y) {p : Parser}
    (hd : ∀ d q, x.attempt p = .ok (.error d) q → d.message ≠ Complaint.tooDeep.message) :
    y.attempt p = x.attempt p := by
  obtain ho | he := h p
  · generalize hr : x p = r at ho
    cases ho with
    | @tooDeep d q hc =>
      have ha : x.attempt p = .ok (.error d) q := by rw [Rule.attempt, hr]
      exact absurd (congrArg Complaint.message hc) (hd d q ha)
  · simp only [Rule.attempt, he]

end Rule

namespace Grammar

open Rule

def limitedTo (g : Grammar) (limit : Int) : Grammar := { g with maxDepth := limit }

variable {g : Grammar} {limit : Int}

theorem level_limitedTo (t : Token) : (g.limitedTo limit).level t = g.level t := rfl

theorem room_le_limitedTo (h : g.maxDepth ≤ limit) (d : Nat) :
    g.room d ≤ (g.limitedTo limit).room d := by
  simp only [room, limitedTo]
  omega

theorem Outlasts.linksWithin {o o' : Rule Node} (ho : Outlasts o o') (least : Int) (n : Nat) :
    Outlasts (g.linksWithin o least n) ((g.limitedTo limit).linksWithin o' least n) := by
  induction n with
  | zero => exact outlasts_refl _
  | succ n ih =>
    refine outlasts_bind current fun t => ?_
    by_cases hl : g.level t < least
    · simp only [level_limitedTo, hl, if_true]
      exact outlasts_refl _
    · simp only [level_limitedTo, hl, if_false]
      exact outlasts_bind _ fun _ => ho.bind fun _ => ih.bind_left _

theorem Outlasts.operators {o o' : Rule Node} (ho : Outlasts o o') (least : Int) (left : Node) :
    Outlasts (g.operators o least left) ((g.limitedTo limit).operators o' least left) :=
  outlasts_bind turns fun n => (Outlasts.linksWithin ho least n).bind_left _

theorem outlasts_expressionWithin {n n' : Nat} (h : n ≤ n') :
    Outlasts (g.expressionWithin n) ((g.limitedTo limit).expressionWithin n') := by
  induction n generalizing n' with
  | zero => exact fun p => .inl (.tooDeep rfl)
  | succ n ih =>
    obtain ⟨n', rfl⟩ := Nat.exists_eq_add_one.2 (show 0 < n' by omega)
    have hn : n ≤ n' := Nat.le_of_succ_le_succ h
    have hp := (ih hn).primary
    exact (hp.bind fun left => Outlasts.operators hp 0 left).nested

theorem outlasts_expression (h : g.maxDepth ≤ limit) :
    Outlasts g.expression (g.limitedTo limit).expression := fun p =>
  outlasts_expressionWithin (room_le_limitedTo h p.depth) p

theorem outlasts_rule (h : g.maxDepth ≤ limit) (kind : ConstructKind) :
    Outlasts (g.rule kind) ((g.limitedTo limit).rule kind) := by
  cases kind with
  | definition =>
    refine outlasts_bind current fun t => outlasts_demand _ ?_
    exact outlasts_bind _ fun _ => outlasts_bind _ fun _ => (outlasts_expression h).bind_left _
  | external => exact outlasts_refl _
  | expression => exact outlasts_bind current fun t => (outlasts_expression h).bind_left _

def WithinLimit (events : List Event) : Prop :=
  ∀ o ∈ Event.outcomes events, o.message? ≠ some Complaint.tooDeep.message

instance (events : List Event) : Decidable (WithinLimit events) :=
  List.decidableBAll _ _

theorem construct_limitedTo (h : g.maxDepth ≤ limit) {kind : ConstructKind} {p q : Parser}
    {o : Outcome} (hc : g.construct kind p = .ok o q)
    (hd : o.message? ≠ some Complaint.tooDeep.message) :
    (g.limitedTo limit).construct kind p = .ok o q := by
  rw [construct_eq] at hc ⊢
  have ha : ((g.limitedTo limit).rule kind).attempt p = (g.rule kind).attempt p := by
    refine (outlasts_rule h kind).attempt fun d r hr hm => hd ?_
    rw [bind_ok hr, resume] at hc
    cases hp : r.advance with
    | ok _ r₁ => rw [bind_ok hp] at hc; cases hc; exact congrArg some hm
    | error e r₁ => rw [bind_error hp] at hc; cases hc
  cases hr : (g.rule kind).attempt p with
  | ok r q₁ => rw [bind_ok (ha.trans hr), ← hc, bind_ok hr]
  | error e q₁ => rw [bind_error hr] at hc; cases hc

theorem runWithin_limitedTo (h : g.maxDepth ≤ limit) (n : Nat) {p : Parser}
    (hf : (g.runWithin n p).fault = none) (hw : WithinLimit (g.runWithin n p).events) :
    (g.limitedTo limit).runWithin n p = g.runWithin n p := by
  induction n generalizing p with
  | zero => rfl
  | succ n ih =>
    cases hs : p.feed.current.stage with
    | finished => simp only [runWithin, hs]
    | separator =>
      simp only [runWithin, hs] at hf hw ⊢
      cases ha : p.advance with
      | ok _ q =>
        rw [ha] at hf hw
        simp only [ih hf hw]
      | error e q => rfl
    | construct kind =>
      simp only [runWithin, hs] at hf hw ⊢
      cases hc : g.construct kind p with
      | ok o q =>
        rw [hc] at hf hw
        obtain ⟨ho, hw⟩ := List.forall_mem_cons.1 hw
        simp only [construct_limitedTo h hc ho, ih hf hw]
      | error e q =>
        rw [hc] at hf
        cases hf

end Grammar

theorem Setup.grammar_limitedTo {setup : Setup} {g : Grammar} (hg : setup.grammar = .ok g)
    (limit : Int) :
    ({ setup with maxDepth := limit } : Setup).grammar = .ok (g.limitedTo limit) := by
  unfold grammar at hg ⊢
  split at hg
  · next ht =>
    cases hg
    simp only [ht]
    rfl
  · next entries ht =>
    simp only [ht]
    cases hp : Precedence.ofEntries entries with
    | ok p =>
      rw [hp] at hg
      cases hg
      rfl
    | error e =>
      rw [hp] at hg
      cases hg

/-- A higher limit makes no difference to what does not come to the lower one: an attempt that does
not complain of too deep a nesting comes to the same and stops at the same token, and a whole run on
which no outcome does so goes the same way from event to event. -/
theorem Grammar.limitedTo_eq_self (g : Grammar) (limit : Int) (hl : g.maxDepth ≤ limit) :
    (∀ kind p, (∀ d q, (g.rule kind).attempt p = .ok (.error d) q →
        d.message ≠ Complaint.tooDeep.message) →
      ((g.limitedTo limit).rule kind).attempt p = (g.rule kind).attempt p) ∧
    (∀ p, (g.run p).fault = none → WithinLimit (g.run p).events →
      (g.limitedTo limit).run p = g.run p) ∧
    ∀ setup : Setup, setup.grammar = .ok g → ∀ text run, setup.run (.ofText text) = .ok run →
      WithinLimit run.events → setup.RunsAs { setup with maxDepth := limit } text := by
  refine ⟨fun kind p hd => (outlasts_rule hl kind).attempt hd,
    fun p hf hw => runWithin_limitedTo hl _ hf hw, ?_⟩
  intro setup hg text run hrun hw
  obtain ⟨f, hp, hdel⟩ := Setup.parser_ok hg text
  have hp' := Setup.parser_eq hg (Setup.grammar_limitedTo hg limit) hp
  obtain ⟨hf, -⟩ := accountsAll_runWithin (g := g) hdel hdel.length_le
  have heq : (g.limitedTo limit).run ⟨f, 0⟩ = g.run ⟨f, 0⟩ := by
    refine runWithin_limitedTo hl _ hf ?_
    cases (Setup.run_eq hp).symm.trans hrun
    exact hw
  exact ⟨_, Setup.run_eq hp, heq ▸ Setup.run_eq hp'⟩

theorem limitedTo_eq_self_unclosed :
    let g : Grammar := { maxDepth := 2 }
    let setup : Setup := { maxDepth := 2 }
    let text := "(1; f(2 3); x"
    g.maxDepth ≤ 7 ∧ setup.grammar = .ok g ∧
      (∃ run, setup.run (.ofText text) = .ok run ∧ Grammar.WithinLimit run.events ∧
        run.events.length = 5) ∧
      setup.RunsAs { setup with maxDepth := 7 } text := by
  intro g setup text
  have hrun : (setup.run (.ofText text)).toOption.map (fun run =>
      decide (Grammar.WithinLimit run.events ∧ run.events.length = 5)) = some true := by
    decide +kernel
  cases hr : setup.run (.ofText text) with
  | ok run =>
    rw [hr] at hrun
    obtain ⟨hw, hlen⟩ := of_decide_eq_true (Option.some.inj hrun)
    have hsame := (Grammar.limitedTo_eq_self g 7 (by decide)).2.2 setup rfl text run hr hw
    exact ⟨by decide, rfl, ⟨run, rfl, hw, hlen⟩, hsame⟩
  | error e =>
    rw [hr] at hrun
    cases hrun

end Kaleidoscope
