import Mathlib.Data.List.Forall2
import Kaleidoscope.Proofs.Onward

/-! Two runs of the parser side by side, on feeds that go together and with tables that rank the
operators alike. The second does what the first does, until it breaks off; by then the first is past
all that the second can see. -/

set_option autoImplicit false

namespace Kaleidoscope

section Tracks

variable {ε σ α β : Type}

/-- Two results that go together: both are good, or both fail alike, or the second breaks off and
the first is past that point. -/
inductive Tracks (pairs : σ → σ → Prop) (past : σ → Prop) (breaks : ε → Prop)
    (good : α → β → Prop) : EStateM.Result ε σ α → EStateM.Result ε σ β → Prop where
  | ok {a : α} {b : β} {s s' : σ} : pairs s s' → good a b →
      Tracks pairs past breaks good (.ok a s) (.ok b s')
  | error {e : ε} {s s' : σ} : pairs s s' → Tracks pairs past breaks good (.error e s) (.error e s')
  | broken {r : EStateM.Result ε σ α} {e : ε} {s' : σ} : past (endState r) → breaks e →
      Tracks pairs past breaks good r (.error e s')

theorem Tracks.bind {γ δ : Type} {pairs : σ → σ → Prop} {past : σ → Prop} {breaks : ε → Prop}
    {good : α → β → Prop} {good' : γ → δ → Prop} {x : EStateM ε σ α} {y : EStateM ε σ β}
    {k : α → EStateM ε σ γ} {l : β → EStateM ε σ δ} {s s' : σ}
    (hx : Tracks pairs past breaks good (x s) (y s'))
    (hk : ∀ a b s s', pairs s s' → good a b → Tracks pairs past breaks good' (k a s) (l b s'))
    (hp : ∀ a s, past s → past (endState (k a s))) :
    Tracks pairs past breaks good' ((x >>= k) s) ((y >>= l) s') := by
  simp only [Bind.bind, EStateM.bind]
  generalize x s = r, y s' = r' at hx
  cases hx with
  | ok hs hg => exact hk _ _ _ _ hs hg
  | error hs => exact .error hs
  | broken hpast hb =>
    refine .broken ?_ hb
    cases r with
    | ok a q => exact hp a q hpast
    | error e q => exact hpast

end Tracks

/-- When two runs go together: the feeds that may be paired, the tokens that are known to occur on
them, the feeds that are past what the second run can see, and the ways in which that breaks off. -/
structure Accord where
  pairs : Feed → Feed → Prop
  known : Token → Prop
  past : Feed → Prop
  breaks : Stop → Prop
  current_eq : ∀ {f f' : Feed}, pairs f f' → f'.current = f.current
  current_known : ∀ {f f' : Feed}, pairs f f' → known f.current
  pairs_advance : ∀ {f f' : Feed}, pairs f f' →
    Tracks pairs past (fun e => breaks (.fault e)) Eq f.advance f'.advance
  past_advance : ∀ f, past f → past (endState f.advance)

/-- The grammars allow the same depth, and agree on which of the known tokens are operators and
which of two operators binds more tightly. -/
structure Grammar.RanksAlike (known : Token → Prop) (g g' : Grammar) : Prop where
  depth : g.maxDepth = g'.maxDepth
  sign : ∀ t, known t → (0 < g.level t ↔ 0 < g'.level t)
  order : ∀ t u, known t → known u → 0 < g.level t → 0 < g.level u →
    (g.level t < g.level u ↔ g'.level t < g'.level u)

namespace Chain

variable {φ : Link → Link}

theorem Splits.map (ho : ∀ l, (φ l).operator = l.operator) (hn : ∀ l, (φ l).operand = l.operand)
    {first node : Node} {ls : List Link} (hs : Splits first ls node)
    (hl : ∀ k ∈ ls, ∀ l ∈ ls, (k.level < l.level ↔ (φ k).level < (φ l).level)) :
    Splits first (ls.map φ) node := by
  induction hs with
  | single first => exact .single first
  | @split first left right before after l hb ha _ _ ihb iha =>
    have hl₁ : ∀ k ∈ before, ∀ m ∈ before, (k.level < m.level ↔ (φ k).level < (φ m).level) :=
      fun k hk m hm => hl k (by simp [hk]) m (by simp [hm])
    have hl₂ : ∀ k ∈ after, ∀ m ∈ after, (k.level < m.level ↔ (φ k).level < (φ m).level) :=
      fun k hk m hm => hl k (by simp [hk]) m (by simp [hm])
    have hleft := ihb hl₁
    have hright := iha hl₂
    rw [← hn l] at hright
    rw [List.map_append, List.map_cons, ← ho l]
    refine .split ?_ ?_ hleft hright
    · intro k' hk'
      obtain ⟨k, hk, rfl⟩ := List.mem_map.1 hk'
      have hlow := hb k hk
      have hiff := hl k (by simp [hk]) l (by simp)
      omega
    · intro k' hk'
      obtain ⟨k, hk, rfl⟩ := List.mem_map.1 hk'
      exact (hl l (by simp) k (by simp [hk])).1 (ha k hk)

theorem tree_map (ho : ∀ l, (φ l).operator = l.operator) (hn : ∀ l, (φ l).operand = l.operand)
    (first : Node) {ls : List Link}
    (hl : ∀ k ∈ ls, ∀ l ∈ ls, (k.level < l.level ↔ (φ k).level < (φ l).level)) :
    tree first (ls.map φ) = tree first ls :=
  (splits_iff.1 ((splits_tree first ls).map ho hn hl)).symm

end Chain

namespace Accord

open Rule

variable {α β γ δ : Type} {A : Accord}

def PairsAt (A : Accord) (p p' : Parser) : Prop := A.pairs p.feed p'.feed ∧ p'.depth = p.depth

/-- The second rule tracks the first from all parsers that are paired, and both only move the feed
on. -/
structure Tracked (A : Accord) (good : α → β → Prop) (x : Rule α) (y : Rule β) : Prop where
  tracks : ∀ p p', A.PairsAt p p' →
    Tracks A.PairsAt (fun p => A.past p.feed) A.breaks good (x p) (y p')
  onward : Onward x
  onward' : Onward y

abbrev TracksFault (A : Accord) :
    EStateM.Result Fault Parser α → EStateM.Result Fault Parser α → Prop :=
  Tracks A.PairsAt (fun p => A.past p.feed) (fun e => A.breaks (.fault e)) Eq

theorem past_leads {f f₁ : Feed} (h : f.Leads f₁) (hf : A.past f) : A.past f₁ :=
  h.keeps A.past_advance hf

section Combinators

variable {good : α → β → Prop} {good' : γ → δ → Prop}

theorem tracked_pure {a : α} {b : β} (h : good a b) :
    A.Tracked good (pure a : Rule α) (pure b : Rule β) :=
  ⟨fun _ _ hp => .ok hp h, onward_pure a, onward_pure b⟩

theorem tracked_fail (c : Complaint) : A.Tracked good (fail c : Rule α) (fail c : Rule β) := by
  refine ⟨fun p p' hp => ?_, onward_fail c, onward_fail c⟩
  simp only [fail, A.current_eq hp.1]
  exact .error hp

theorem Tracked.bind_of {x : Rule α} {y : Rule β} {k : α → Rule γ} {l : β → Rule δ}
    (hx : A.Tracked good x y) (hk : ∀ a b, good a b → A.Tracked good' (k a) (l b))
    (ho : ∀ a, Onward (k a)) (ho' : ∀ b, Onward (l b)) :
    A.Tracked good' (x >>= k) (y >>= l) :=
  ⟨fun p p' hp => (hx.tracks p p' hp).bind (fun _ _ q q' hq hg => (hk _ _ hg).tracks q q' hq)
    (fun a q hq => past_leads (ho a q) hq), hx.onward.bind ho, hx.onward'.bind ho'⟩

theorem Tracked.bind {x y : Rule α} {k : α → Rule γ} {l : α → Rule δ} (hx : A.Tracked Eq x y)
    (hk : ∀ a, A.Tracked good' (k a) (l a)) : A.Tracked good' (x >>= k) (y >>= l) :=
  hx.bind_of (fun _ _ h => h ▸ hk _) (fun a => (hk a).onward) (fun a => (hk a).onward')

theorem tracked_current_bind {k : Token → Rule γ} {l : Token → Rule δ}
    (h : ∀ t, A.Tracked good' (k t) (l t)) : A.Tracked good' (current >>= k) (current >>= l) := by
  refine ⟨fun p p' hp => ?_, onward_current_bind fun t => (h t).onward,
    onward_current_bind fun t => (h t).onward'⟩
  rw [current_bind, current_bind, A.current_eq hp.1]
  exact (h _).tracks p p' hp

theorem tracks_advance {p p' : Parser} (hp : A.PairsAt p p') :
    A.TracksFault p.advance p'.advance := by
  have h := A.pairs_advance hp.1
  simp only [Parser.advance]
  generalize p.feed.advance = r, p'.feed.advance = r' at h
  cases h with
  | ok hs => exact .ok ⟨hs, hp.2⟩ rfl
  | error hs => exact .error ⟨hs, hp.2⟩
  | @broken r e _ hpast hb =>
    refine .broken ?_ hb
    cases r <;> exact hpast

theorem tracked_advance : A.Tracked Eq advance advance := by
  refine ⟨fun p p' hp => ?_, onward_advance, onward_advance⟩
  have h := tracks_advance hp
  simp only [Rule.advance]
  generalize p.advance = r, p'.advance = r' at h
  cases h with
  | ok hs => exact .ok hs rfl
  | error hs => exact .error hs
  | @broken r e _ hpast hb =>
    refine .broken ?_ hb
    cases r <;> exact hpast

theorem tracked_turns_bind {k : Nat → Rule γ} {l : Nat → Rule δ}
    (h : ∀ n, A.Tracked good' (k n) (l n)) (hk : Turning k) (hl : Turning l) :
    A.Tracked good' (turns >>= k) (turns >>= l) := by
  refine ⟨fun p p' hp => ?_, onward_turns_bind fun n => (h n).onward,
    onward_turns_bind fun n => (h n).onward'⟩
  have hn := hk p (p.feed.size + 1) (p.feed.size + p'.feed.size + 1) (by omega) (by omega)
  have hn' := hl p' (p'.feed.size + 1) (p.feed.size + p'.feed.size + 1) (by omega) (by omega)
  rw [turns_bind, turns_bind, hn, hn']
  exact (h _).tracks p p' hp

theorem Tracked.nested {x y : Rule α} (h : A.Tracked Eq x y) :
    A.Tracked Eq (nested x) (nested y) := by
  refine ⟨fun p p' hp => ?_, h.onward.nested, h.onward'.nested⟩
  have hx := h.tracks { p with depth := p.depth + 1 } { p' with depth := p'.depth + 1 }
    ⟨hp.1, by rw [hp.2]⟩
  simp only [Rule.nested]
  generalize x _ = r, y _ = r' at hx
  cases hx with
  | ok hs hg => exact .ok ⟨hs.1, by rw [hs.2]⟩ hg
  | error hs => exact .error ⟨hs.1, by rw [hs.2]⟩
  | @broken r e _ hpast hb =>
    refine .broken ?_ hb
    cases r with
    | ok => exact hpast
    | error => exact hpast

theorem tracked_demand {c : Prop} [Decidable c] (complaint : Complaint) {k : Unit → Rule γ}
    {l : Unit → Rule δ} (h : A.Tracked good' (k ()) (l ())) :
    A.Tracked good' (if c then fail complaint >>= k else k ())
      (if c then fail complaint >>= l else l ()) := by
  split
  · exact (tracked_fail complaint).bind fun _ => h
  · exact h

end Combinators

section Operands

variable {e e' : Rule Node}

theorem tracked_number : A.Tracked Eq number number := by
  refine tracked_current_bind fun t => ?_
  cases t.payload with
  | none => exact tracked_fail _
  | number v => exact tracked_advance.bind fun _ => tracked_pure rfl
  | text s => exact tracked_advance.bind fun _ => tracked_pure rfl

theorem tracked_expect (s : String) (c : Complaint) : A.Tracked Eq (expect s c) (expect s c) := by
  refine tracked_current_bind fun t => ?_
  split
  · exact tracked_advance
  · exact tracked_fail c

theorem Tracked.parenthesized (he : A.Tracked Eq e e') :
    A.Tracked Eq (parenthesized e) (parenthesized e') :=
  tracked_advance.bind fun _ => he.bind fun _ => (tracked_expect _ _).bind fun _ =>
    tracked_pure rfl

theorem Tracked.argumentsWithin (he : A.Tracked Eq e e') (n : Nat) :
    A.Tracked Eq (argumentsWithin e n) (argumentsWithin e' n) := by
  induction n with
  | zero => exact tracked_pure rfl
  | succ n ih =>
    refine he.bind fun arg => tracked_current_bind fun t => ?_
    split
    · exact tracked_pure rfl
    · split
      · exact tracked_advance.bind fun _ => ih.bind fun _ => tracked_pure rfl
      · exact tracked_fail _

theorem Tracked.arguments (he : A.Tracked Eq e e') :
    A.Tracked Eq (arguments e) (arguments e') := by
  refine tracked_current_bind fun t => ?_
  split
  · exact tracked_pure rfl
  · exact tracked_turns_bind he.argumentsWithin (turning_argumentsWithin he.onward)
      (turning_argumentsWithin he.onward')

theorem Tracked.identifier (he : A.Tracked Eq e e') :
    A.Tracked Eq (identifier e) (identifier e') := by
  simp only [Rule.identifier, take, bind_assoc, pure_bind]
  refine tracked_current_bind fun name => tracked_advance.bind fun _ =>
    tracked_current_bind fun t => ?_
  split
  · exact tracked_advance.bind fun _ => he.arguments.bind fun _ => tracked_advance.bind fun _ =>
      tracked_pure rfl
  · exact tracked_pure rfl

theorem Tracked.primary (he : A.Tracked Eq e e') : A.Tracked Eq (primary e) (primary e') := by
  refine tracked_current_bind fun t => ?_
  split
  · exact he.identifier
  · exact tracked_number
  · split
    · exact he.parenthesized
    · exact tracked_fail _

theorem tracked_parametersWithin (n : Nat) :
    A.Tracked Eq (parametersWithin n) (parametersWithin n) := by
  induction n with
  | zero => exact tracked_pure rfl
  | succ n ih =>
    refine tracked_advance.bind fun _ => tracked_current_bind fun t => ?_
    split
    · exact ih.bind fun _ => tracked_pure rfl
    · exact tracked_pure rfl

theorem tracked_prototype : A.Tracked Eq prototype prototype := by
  refine tracked_current_bind fun name => tracked_demand _ ?_
  refine tracked_advance.bind fun _ => tracked_current_bind fun t => tracked_demand _ ?_
  refine tracked_turns_bind (fun n => ?_) (turning_parametersWithin.bind _)
    (turning_parametersWithin.bind _)
  exact (tracked_parametersWithin n).bind fun _ => (tracked_expect _ _).bind fun _ =>
    tracked_pure rfl

end Operands

section Grammars

variable {g g' : Grammar} {o o' : Rule Node}

def relevel (g : Grammar) (l : Link) : Link := { l with level := g.level l.operator }

/-- The links of known operators, with the levels that the two grammars give them. -/
def SameLinks (A : Accord) (g g' : Grammar) (ls ls' : List Link) : Prop :=
  ls' = ls.map (relevel g') ∧
    ∀ l ∈ ls, A.known l.operator ∧ 0 < l.level ∧ l.level = g.level l.operator

theorem tree_of_sameLinks (hr : Grammar.RanksAlike A.known g g') {ls ls' : List Link}
    (h : A.SameLinks g g' ls ls') (first : Node) :
    Chain.tree first ls = Chain.tree first ls' := by
  rw [h.1]
  refine (Chain.tree_map (φ := relevel g') (fun _ => rfl) (fun _ => rfl) first
    fun k hk l hl => ?_).symm
  obtain ⟨hk, hkpos, hklevel⟩ := h.2 k hk
  obtain ⟨hl, hlpos, hllevel⟩ := h.2 l hl
  rw [hklevel] at hkpos ⊢
  rw [hllevel] at hlpos ⊢
  exact hr.order _ _ hk hl hkpos hlpos

theorem Tracked.linksWithin (hr : Grammar.RanksAlike A.known g g') (ho : A.Tracked Eq o o')
    (n : Nat) :
    A.Tracked (A.SameLinks g g') (g.linksWithin o 0 n) (g'.linksWithin o' 0 n) := by
  induction n with
  | zero => exact tracked_pure ⟨rfl, by simp⟩
  | succ n ih =>
    refine ⟨fun p p' hp => ?_, g.onward_linksWithin ho.onward 0 _,
      g'.onward_linksWithin ho.onward' 0 _⟩
    have hk := A.current_known hp.1
    have hsign := hr.sign _ hk
    have hpos := g.level_pos_or p.feed.current
    have hpos' := g'.level_pos_or p.feed.current
    by_cases hl : g.level p.feed.current < 0
    · have hl' : g'.level p'.feed.current < 0 := by
        rw [A.current_eq hp.1]
        omega
      rw [Grammar.linksWithin_stop hl, Grammar.linksWithin_stop hl']
      exact .ok hp ⟨rfl, by simp⟩
    · have hl' : ¬ g'.level p.feed.current < 0 := by omega
      simp only [Grammar.linksWithin, current_bind, A.current_eq hp.1, hl, hl', if_false]
      refine Tracked.tracks (tracked_advance.bind fun _ => ho.bind fun right =>
        ih.bind_of (fun ls ls' h => tracked_pure ⟨?_, ?_⟩) (fun _ => onward_pure _)
          (fun _ => onward_pure _)) p p' hp
      · rw [h.1]
        rfl
      · exact List.forall_mem_cons.2 ⟨⟨hk, by simp only; omega, rfl⟩, h.2⟩

theorem Tracked.operators (hr : Grammar.RanksAlike A.known g g') (ho : A.Tracked Eq o o')
    (left : Node) : A.Tracked Eq (g.operators o 0 left) (g'.operators o' 0 left) := by
  refine tracked_turns_bind (fun n => ?_) ((g.turning_linksWithin ho.onward).bind _)
    ((g'.turning_linksWithin ho.onward').bind _)
  exact (ho.linksWithin hr n).bind_of (fun ls ls' h => tracked_pure (tree_of_sameLinks hr h left))
    (fun _ => onward_pure _) (fun _ => onward_pure _)

theorem tracked_expressionWithin (hr : Grammar.RanksAlike A.known g g') (n : Nat) :
    A.Tracked Eq (g.expressionWithin n) (g'.expressionWithin n) := by
  induction n with
  | zero => exact tracked_fail .tooDeep
  | succ n ih => exact (ih.primary.bind fun left => ih.primary.operators hr left).nested

theorem tracked_expression (hr : Grammar.RanksAlike A.known g g') :
    A.Tracked Eq g.expression g'.expression := by
  refine ⟨fun p p' hp => ?_, fun p => (tracked_expressionWithin hr _).onward p,
    fun p => (tracked_expressionWithin hr _).onward' p⟩
  have hroom : g'.room p'.depth = g.room p.depth := by
    rw [Grammar.room, Grammar.room, hr.depth, hp.2]
  simp only [Grammar.expression, hroom]
  exact (tracked_expressionWithin hr _).tracks p p' hp

/-- The rule for a construct is tracked, whatever the construct. -/
theorem tracked_rule (hr : Grammar.RanksAlike A.known g g') (kind : ConstructKind) :
    A.Tracked Eq (g.rule kind) (g'.rule kind) := by
  cases kind with
  | definition =>
    exact tracked_current_bind fun t => tracked_demand _ (tracked_advance.bind fun _ =>
      tracked_prototype.bind fun _ => (tracked_expression hr).bind fun _ => tracked_pure rfl)
  | external =>
    exact tracked_current_bind fun t => tracked_demand _ (tracked_advance.bind fun _ =>
      tracked_prototype)
  | expression =>
    exact tracked_current_bind fun t => (tracked_expression hr).bind fun _ => tracked_pure rfl

end Grammars

section Runs

variable {g g' : Grammar}

/-- Of all that may stop a rule, the second run breaks off on faults alone, and not on the one that
counts as a nesting too deep. -/
def BreaksOnFaults (A : Accord) : Prop := ∀ e, A.breaks e → ∃ f, e = .fault f ∧ f ≠ .exhausted

theorem Tracked.attempt (hA : A.BreaksOnFaults) {x y : Rule Node} (h : A.Tracked Eq x y)
    {p p' : Parser} (hp : A.PairsAt p p') : A.TracksFault (x.attempt p) (y.attempt p') := by
  have ht := h.tracks p p' hp
  have hend := endState_attempt x p
  simp only [Rule.attempt] at hend ⊢
  generalize x p = r, y p' = r' at ht hend
  cases ht with
  | ok hs hg => exact .ok hs (congrArg _ hg)
  | @error e q q' hs =>
    cases e with
    | diagnostic d => exact .ok hs rfl
    | fault f =>
      cases f with
      | exhausted => exact .ok hs (by rw [A.current_eq hs.1])
      | interrupted => exact .error hs
      | unreadable => exact .error hs
  | @broken _ e q' hpast hb =>
    rw [← hend] at hpast
    obtain ⟨f, rfl, hf⟩ := hA e hb
    cases f with
    | exhausted => exact absurd rfl hf
    | interrupted => exact .broken hpast hb
    | unreadable => exact .broken hpast hb

theorem tracks_construct (hA : A.BreaksOnFaults) {kind : ConstructKind}
    (h : A.Tracked Eq (g.rule kind) (g'.rule kind)) {p p' : Parser} (hp : A.PairsAt p p') :
    A.TracksFault (g.construct kind p) (g'.construct kind p') := by
  rw [Grammar.construct_eq, Grammar.construct_eq]
  refine (h.attempt hA hp).bind ?_ fun r q hq => past_leads (Grammar.resume_leads kind r q) hq
  rintro r _ q q' hq rfl
  cases r with
  | ok node => exact .ok hq rfl
  | error d =>
    exact (tracks_advance hq).bind (fun _ _ _ _ hs _ => .ok hs rfl) fun _ _ hpast => hpast

inductive SameEvent (A : Accord) : Event → Event → Prop where
  | separator {p p' : Parser} : A.PairsAt p p' → SameEvent A (.separator p) (.separator p')
  | outcome {o : Outcome} {p p' : Parser} : A.PairsAt p p' →
      SameEvent A (.outcome o p) (.outcome o p')

/-- The second run goes as the first does, to the end of both, or until it breaks off. -/
inductive TracksRun (A : Accord) (run run' : Run) : Prop where
  | whole : List.Forall₂ A.SameEvent run.events run'.events → run.fault = run'.fault →
      A.PairsAt run.final run'.final → TracksRun A run run'
  | broken {before after : List Event} {f : Fault} : run.events = before ++ after →
      List.Forall₂ A.SameEvent before run'.events →
      (∀ e ∈ after, A.past e.parser.feed) → A.past run.final.feed →
      run'.fault = some f → A.breaks (.fault f) → TracksRun A run run'

theorem TracksRun.after {run run' : Run} {e e' : Event} (h : A.TracksRun run run')
    (he : A.SameEvent e e') : A.TracksRun (run.after e) (run'.after e') := by
  cases h with
  | whole hes hf hp => exact .whole (.cons he hes) hf hp
  | @broken before after f hrun hes hafter hp hf hb =>
    refine .broken ?_ (.cons he hes) hafter hp hf hb
    rw [Run.after, hrun, List.cons_append]

theorem tracksRun_broken {run : Run} (hes : ∀ e ∈ run.events, A.past e.parser.feed)
    (hf : A.past run.final.feed) {f : Fault} (hb : A.breaks (.fault f)) (q : Parser) :
    A.TracksRun run ⟨[], some f, q⟩ := .broken (List.nil_append _).symm .nil hes hf rfl hb

theorem past_runWithin (h : ∀ kind, Onward (g.rule kind)) (n : Nat) {p : Parser}
    (hp : A.past p.feed) :
    (∀ e ∈ (g.runWithin n p).events, A.past e.parser.feed) ∧
      A.past (g.runWithin n p).final.feed := by
  obtain ⟨hes, hf⟩ := Grammar.runWithin_leads h n p
  exact ⟨fun e he => past_leads (hes e he) hp, past_leads hf hp⟩

/-- Each turn of the one loop is tracked by a turn of the other. -/
theorem tracksRun_runWithin (hA : A.BreaksOnFaults) (hr : Grammar.RanksAlike A.known g g')
    (n : Nat) {p p' : Parser} (hp : A.PairsAt p p') :
    A.TracksRun (g.runWithin n p) (g'.runWithin n p') := by
  have hrule := fun kind => tracked_rule (A := A) hr kind
  have honward := fun kind => (hrule kind).onward
  induction n generalizing p p' with
  | zero => exact .whole .nil rfl hp
  | succ n ih =>
    have hc := A.current_eq hp.1
    cases hs : p.feed.current.stage with
    | finished =>
      simp only [Grammar.runWithin, hs, hc]
      exact .whole .nil rfl hp
    | separator =>
      have ht := tracks_advance hp
      simp only [Grammar.runWithin, hs, hc]
      generalize p.advance = r, p'.advance = r' at ht
      refine TracksRun.after ?_ (.separator hp)
      cases ht with
      | ok hq _ => exact ih hq
      | error hq => exact .whole .nil rfl hq
      | broken hpast hb =>
        cases r with
        | ok _ q =>
          obtain ⟨hes, hf⟩ := past_runWithin honward n hpast
          exact tracksRun_broken hes hf hb _
        | error e q => exact tracksRun_broken (by simp) hpast hb _
    | construct kind =>
      have ht := tracks_construct hA (hrule kind) hp
      simp only [Grammar.runWithin, hs, hc]
      generalize g.construct kind p = r, g'.construct kind p' = r' at ht
      cases ht with
      | ok hq ho => exact (ih hq).after (ho ▸ .outcome hq)
      | error hq => exact .whole .nil rfl hq
      | broken hpast hb =>
        cases r with
        | ok o q =>
          obtain ⟨hes, hf⟩ := past_runWithin honward n hpast
          have hall : ∀ e ∈ (Run.after (.outcome o q) (g.runWithin n q)).events,
              A.past e.parser.feed := by
            intro e he
            obtain rfl | he := List.mem_cons.1 he
            · exact hpast
            · exact hes e he
          exact tracksRun_broken hall hf hb _
        | error e q => exact tracksRun_broken (by simp) hpast hb _

end Runs

end Accord

end Kaleidoscope
