import Kaleidoscope.Proofs.Onward
import Kaleidoscope.Proofs.Operators

/-! How a parser is left. Whatever it is asked for, in whatever state it is and wherever its source
fails, it is left at the depth at which it was found, on the last token that came in full. An
attempt turns the complaints into results, and lets no fault through but those that are not its
business. -/

set_option autoImplicit false

namespace Kaleidoscope

/-- The tokens that good advances bring, one after another. -/
inductive Feed.Brings : Feed → List Token → Feed → Prop where
  | here {f : Feed} : Brings f [] f
  | next {f f₁ f₂ : Feed} {ts : List Token} : f.advance = .ok () f₁ → Brings f₁ ts f₂ →
      Brings f (f₁.current :: ts) f₂

namespace Feed

variable {f f₁ f₂ : Feed} {ts us : List Token}

theorem Brings.append (h : Brings f ts f₁) (h' : Brings f₁ us f₂) : Brings f (ts ++ us) f₂ := by
  induction h with
  | here => exact h'
  | next ha _ ih => exact .next ha (ih h')

theorem Brings.current (h : Brings f ts f₁) : f₁.current = ts.getLastD f.current := by
  induction h with
  | here => rfl
  | @next f f₁ f₂ ts _ _ ih => rw [ih, List.getLastD_cons]

theorem Brings.leads (h : Brings f ts f₁) : f.Leads f₁ := by
  induction h with
  | here => exact .here
  | next ha _ ih => exact .step (by rwa [ha])

theorem current_of_advance_error {e : Fault} (h : f.advance = .error e f₁) :
    f₁.current = f.current := by
  unfold advance at h
  split at h
  · cases h
  · cases h
  · cases h; rfl

end Feed

namespace Rule

variable {α β : Type}

/-- How a rule may leave a parser: at the same depth, with a result, on a complaint about the
current token, or where the source failed to bring another token. -/
inductive Exits (p : Parser) : EStateM.Result Stop Parser α → Prop where
  | result {a : α} {ts : List Token} {f : Feed} : p.feed.Brings ts f →
      Exits p (.ok a ⟨f, p.depth⟩)
  | complaint {c : Complaint} {ts : List Token} {f : Feed} : p.feed.Brings ts f →
      Exits p (.error (.diagnostic (.atToken f.current c)) ⟨f, p.depth⟩)
  | fault {e : Fault} {ts : List Token} {f f' : Feed} : p.feed.Brings ts f →
      f.advance = .error e f' → Exits p (.error (.fault e) ⟨f', p.depth⟩)

theorem Exits.depth_eq {p : Parser} {r : EStateM.Result Stop Parser α} (h : Exits p r) :
    (endState r).depth = p.depth := by
  cases h <;> rfl

theorem Exits.leads {p : Parser} {r : EStateM.Result Stop Parser α} (h : Exits p r) :
    p.feed.Leads (endState r).feed := by
  cases h with
  | result hb => exact hb.leads
  | complaint hb => exact hb.leads
  | fault hb ha => exact hb.leads.trans (.step (by rw [ha]; exact .here))

def Orderly (x : Rule α) : Prop := ∀ p, Exits p (x p)

theorem orderly_pure (a : α) : Orderly (pure a) := fun _ => .result .here

theorem orderly_fail (c : Complaint) : Orderly (fail c : Rule α) := fun _ => .complaint .here

theorem orderly_current : Orderly current := fun _ => .result .here

theorem orderly_turns : Orderly turns := fun _ => .result .here

theorem orderly_advance : Orderly advance := by
  intro p
  obtain ⟨f, d⟩ := p
  cases ha : f.advance with
  | ok _ f₁ => rw [advance_ok ha]; exact .result (.next ha .here)
  | error e f₁ => rw [advance_error ha]; exact .fault .here ha

theorem Orderly.bind {x : Rule α} {k : α → Rule β} (hx : Orderly x) (hk : ∀ a, Orderly (k a)) :
    Orderly (x >>= k) := by
  intro p
  have h := hx p
  generalize hr : x p = r at h
  cases h with
  | @result a ts f hb =>
    rw [bind_ok hr]
    have h' := hk a ⟨f, p.depth⟩
    generalize k a ⟨f, p.depth⟩ = r' at h'
    cases h' with
    | result hb' => exact .result (hb.append hb')
    | complaint hb' => exact .complaint (hb.append hb')
    | fault hb' ha => exact .fault (hb.append hb') ha
  | complaint hb => rw [bind_error hr]; exact .complaint hb
  | fault hb ha => rw [bind_error hr]; exact .fault hb ha

theorem Orderly.nested {x : Rule α} (hx : Orderly x) : Orderly (nested x) := by
  intro p
  have h := hx { p with depth := p.depth + 1 }
  simp only [Rule.nested]
  generalize x _ = r at h
  cases h with
  | result hb => exact .result hb
  | complaint hb => exact .complaint hb
  | fault hb ha => exact .fault hb ha

theorem orderly_demand {c : Prop} [Decidable c] (complaint : Complaint) {k : Unit → Rule β}
    (h : Orderly (k ())) : Orderly (if c then fail complaint >>= k else k ()) := by
  split
  · exact fun _ => .complaint .here
  · exact h

theorem orderly_expect (s : String) (c : Complaint) : Orderly (expect s c) := by
  refine orderly_current.bind fun t => ?_
  split
  · exact orderly_advance
  · exact orderly_fail c

theorem orderly_number : Orderly number := by
  refine orderly_current.bind fun t => ?_
  cases t.payload with
  | none => exact orderly_fail _
  | number v => exact orderly_advance.bind fun _ => orderly_pure _
  | text s => exact orderly_advance.bind fun _ => orderly_pure _

section Operands

variable {e : Rule Node}

theorem Orderly.parenthesized (he : Orderly e) : Orderly (parenthesized e) :=
  orderly_advance.bind fun _ => he.bind fun _ => (orderly_expect _ _).bind fun _ => orderly_pure _

theorem Orderly.argumentsWithin (he : Orderly e) (n : Nat) : Orderly (argumentsWithin e n) := by
  induction n with
  | zero => exact orderly_pure _
  | succ n ih =>
    refine he.bind fun arg => orderly_current.bind fun t => ?_
    split
    · exact orderly_pure _
    · split
      · exact orderly_advance.bind fun _ => ih.bind fun _ => orderly_pure _
      · exact orderly_fail _

theorem Orderly.arguments (he : Orderly e) : Orderly (arguments e) := by
  refine orderly_current.bind fun t => ?_
  split
  · exact orderly_pure _
  · exact orderly_turns.bind fun n => he.argumentsWithin n

theorem orderly_take : Orderly take :=
  orderly_current.bind fun _ => orderly_advance.bind fun _ => orderly_pure _

theorem Orderly.identifier (he : Orderly e) : Orderly (identifier e) := by
  refine orderly_take.bind fun name => orderly_current.bind fun t => ?_
  split
  · exact orderly_advance.bind fun _ => he.arguments.bind fun _ => orderly_advance.bind fun _ =>
      orderly_pure _
  · exact orderly_pure _

theorem Orderly.primary (he : Orderly e) : Orderly (primary e) := by
  refine orderly_current.bind fun t => ?_
  split
  · exact he.identifier
  · exact orderly_number
  · split
    · exact he.parenthesized
    · exact orderly_fail _

end Operands

theorem orderly_parametersWithin (n : Nat) : Orderly (parametersWithin n) := by
  induction n with
  | zero => exact orderly_pure _
  | succ n ih =>
    refine orderly_advance.bind fun _ => orderly_current.bind fun t => ?_
    split
    · exact ih.bind fun _ => orderly_pure _
    · exact orderly_pure _

theorem orderly_prototype : Orderly prototype := by
  refine orderly_current.bind fun name => orderly_demand _ (orderly_advance.bind fun _ => ?_)
  refine orderly_current.bind fun t => orderly_demand _ (orderly_turns.bind fun n => ?_)
  exact (orderly_parametersWithin n).bind fun _ => (orderly_expect _ _).bind fun _ =>
    orderly_pure _

end Rule

namespace Grammar

open Rule

theorem orderly_linksWithin (g : Grammar) {operand : Rule Node} (ho : Orderly operand)
    (least : Int) (n : Nat) : Orderly (g.linksWithin operand least n) := by
  induction n with
  | zero => exact orderly_pure _
  | succ n ih =>
    refine orderly_current.bind fun t => ?_
    simp only
    split
    · exact orderly_pure _
    · exact orderly_advance.bind fun _ => ho.bind fun _ => ih.bind fun _ => orderly_pure _

theorem orderly_operators (g : Grammar) {operand : Rule Node} (ho : Orderly operand)
    (least : Int) (left : Node) : Orderly (g.operators operand least left) :=
  orderly_turns.bind fun n => (g.orderly_linksWithin ho least n).bind fun _ => orderly_pure _

theorem orderly_expressionWithin (g : Grammar) (n : Nat) : Orderly (g.expressionWithin n) := by
  induction n with
  | zero => exact orderly_fail .tooDeep
  | succ n ih =>
    exact (ih.primary.bind fun left => g.orderly_operators ih.primary 0 left).nested

theorem orderly_expression (g : Grammar) : Orderly g.expression := fun p =>
  g.orderly_expressionWithin (g.room p.depth) p

theorem orderly_rule (g : Grammar) (kind : ConstructKind) : Orderly (g.rule kind) := by
  cases kind with
  | definition =>
    exact orderly_current.bind fun t => orderly_demand _ (orderly_advance.bind fun _ =>
      orderly_prototype.bind fun _ => g.orderly_expression.bind fun _ => orderly_pure _)
  | external =>
    exact orderly_current.bind fun t => orderly_demand _ (orderly_advance.bind fun _ =>
      orderly_prototype)
  | expression =>
    exact orderly_current.bind fun t => g.orderly_expression.bind fun _ => orderly_pure _

end Grammar

section Attempts

variable {p : Parser}

/-- How an attempt may leave a parser: at the same depth, with a node, or with a complaint about the
current token. A source that is exhausted comes to such a complaint as well; any other fault is
passed on. Where the source failed, the last token that came in full is current. -/
inductive Settles (p : Parser) : EStateM.Result Fault Parser ParseResult → Prop where
  | node {n : Node} {ts : List Token} {f : Feed} : p.feed.Brings ts f →
      Settles p (.ok (.ok n) ⟨f, p.depth⟩)
  | complaint {c : Complaint} {ts : List Token} {f : Feed} : p.feed.Brings ts f →
      Settles p (.ok (.error (.atToken f.current c)) ⟨f, p.depth⟩)
  | exhausted {ts : List Token} {f f' : Feed} : p.feed.Brings ts f →
      f.advance = .error .exhausted f' → f'.current = ts.getLastD p.feed.current →
      Settles p (.ok (.error (.atToken f'.current .tooDeep)) ⟨f', p.depth⟩)
  | fault {e : Fault} {ts : List Token} {f f' : Feed} : e ≠ .exhausted → p.feed.Brings ts f →
      f.advance = .error e f' → f'.current = ts.getLastD p.feed.current →
      Settles p (.error e ⟨f', p.depth⟩)

theorem Rule.Exits.settles {x : Rule Node} (h : Exits p (x p)) : Settles p (x.attempt p) := by
  simp only [attempt]
  generalize x p = r at h
  cases h with
  | result hb => exact .node hb
  | complaint hb => exact .complaint hb
  | @fault e ts f f' hb ha =>
    have hc : f'.current = ts.getLastD p.feed.current :=
      (Feed.current_of_advance_error ha).trans hb.current
    cases e with
    | exhausted => exact .exhausted hb ha hc
    | interrupted => exact .fault (by simp) hb ha hc
    | unreadable => exact .fault (by simp) hb ha hc

theorem Rule.attempt_eq_error_iff {x : Rule Node} {e : Fault} {q : Parser} :
    x.attempt p = .error e q ↔ e ≠ .exhausted ∧ x p = .error (.fault e) q := by
  simp only [attempt]
  constructor
  · intro h
    split at h
    · cases h
    · cases h
    · cases h
    · next hne hx =>
      cases h
      exact ⟨fun he => hne (he ▸ rfl), hx⟩
  · intro h
    obtain ⟨hne, hx⟩ := h
    rw [hx]
    cases e with
    | exhausted => exact absurd rfl hne
    | interrupted => rfl
    | unreadable => rfl

theorem Settles.depth_eq {r : EStateM.Result Fault Parser ParseResult} (h : Settles p r) :
    (endState r).depth = p.depth := by
  cases h <;> rfl

theorem Parser.depth_advance (p : Parser) : (endState p.advance).depth = p.depth := by
  simp only [Parser.advance]
  cases p.feed.advance <;> rfl

namespace Grammar

theorem depth_resume (kind : ConstructKind) (r : ParseResult) (p : Parser) :
    (endState (resume kind r p)).depth = p.depth := by
  cases r with
  | ok node => rfl
  | error d =>
    have h := p.depth_advance
    cases hp : p.advance with
    | ok _ q => rw [hp] at h; rw [resume, bind_ok hp]; exact h
    | error e q => rw [hp] at h; rw [resume, bind_error hp]; exact h

theorem depth_construct (g : Grammar) (kind : ConstructKind) (p : Parser) :
    (endState (g.construct kind p)).depth = p.depth := by
  have h := (g.orderly_rule kind p).settles.depth_eq
  rw [construct_eq]
  cases hr : (g.rule kind).attempt p with
  | ok r q => rw [hr] at h; rw [bind_ok hr]; exact (depth_resume kind r q).trans h
  | error e q => rw [hr] at h; rw [bind_error hr]; exact h

theorem depth_requestWithin (g : Grammar) (n : Nat) (p : Parser) :
    (endState (g.requestWithin n p).result).depth = p.depth := by
  induction n generalizing p with
  | zero => rfl
  | succ n ih =>
    cases hs : p.feed.current.stage with
    | finished => simp only [requestWithin, hs]; rfl
    | separator =>
      have h := p.depth_advance
      simp only [requestWithin, hs]
      cases hp : p.advance with
      | ok _ q => rw [hp] at h; exact (ih q).trans h
      | error e q => rw [hp] at h; exact h
    | construct kind =>
      have h := g.depth_construct kind p
      simp only [requestWithin, hs]
      cases hp : g.construct kind p with
      | ok o q => rw [hp] at h; exact h
      | error e q => rw [hp] at h; exact h

theorem requestWithin_leads {g : Grammar} (h : ∀ kind, Rule.Onward (g.rule kind)) (n : Nat)
    (p : Parser) : p.feed.Leads (endState (g.requestWithin n p).result).feed := by
  induction n generalizing p with
  | zero => exact .here
  | succ n ih =>
    cases hs : p.feed.current.stage with
    | finished => simp only [requestWithin, hs]; exact .here
    | separator =>
      have ha := parser_advance_leads p
      simp only [requestWithin, hs]
      cases hp : p.advance with
      | ok _ q => rw [hp] at ha; exact ha.trans (ih q)
      | error e q => rw [hp] at ha; exact ha
    | construct kind =>
      have hc := construct_leads (h kind) p
      simp only [requestWithin, hs]
      cases hp : g.construct kind p with
      | ok o q => rw [hp] at hc; exact hc
      | error e q => rw [hp] at hc; exact hc

end Grammar

end Attempts

/-- What may be asked of a parser. Between one demand and the next, the limit and the table of
operators may be changed. -/
inductive Operation where
  | advance
  | expect (char : String) (complaint : Complaint)
  | number
  | parenthesized
  | identifier
  | primary
  | operators (least : Int) (left : Node)
  | expression
  | prototype
  | rule (kind : ConstructKind)
  | attempt (kind : ConstructKind)
  | nextOutcome
  | limit (maxDepth : Int)
  | table (precedence : Precedence)

namespace Operation

def grammar (g : Grammar) : Operation → Grammar
  | .limit maxDepth => { g with maxDepth }
  | .table precedence => { g with precedence }
  | _ => g

def parser (g : Grammar) (p : Parser) : Operation → Parser
  | .advance => endState p.advance
  | .expect char complaint => endState (Rule.expect char complaint p)
  | .number => endState (Rule.number p)
  | .parenthesized => endState (Rule.parenthesized g.expression p)
  | .identifier => endState (Rule.identifier g.expression p)
  | .primary => endState (Rule.primary g.expression p)
  | .operators least left => endState (g.operators (Rule.primary g.expression) least left p)
  | .expression => endState (g.expression p)
  | .prototype => endState (Rule.prototype p)
  | .rule kind => endState (g.rule kind p)
  | .attempt kind => endState ((g.rule kind).attempt p)
  | .nextOutcome => endState (g.request p).result
  | .limit _ | .table _ => p

def performAll (ops : List Operation) (g : Grammar) (p : Parser) : Grammar × Parser :=
  ops.foldl (fun s op => (op.grammar s.1, op.parser s.1 s.2)) (g, p)

theorem depth_after (op : Operation) (g : Grammar) (p : Parser) :
    (op.parser g p).depth = p.depth := by
  have he := g.orderly_expression
  cases op with
  | advance => exact p.depth_advance
  | expect char complaint => exact (Rule.orderly_expect char complaint p).depth_eq
  | number => exact (Rule.orderly_number p).depth_eq
  | parenthesized => exact (he.parenthesized p).depth_eq
  | identifier => exact (he.identifier p).depth_eq
  | primary => exact (he.primary p).depth_eq
  | operators least left => exact (g.orderly_operators he.primary least left p).depth_eq
  | expression => exact (he p).depth_eq
  | prototype => exact (Rule.orderly_prototype p).depth_eq
  | rule kind => exact (g.orderly_rule kind p).depth_eq
  | attempt kind => exact (g.orderly_rule kind p).settles.depth_eq
  | nextOutcome => exact g.depth_requestWithin _ p
  | limit => rfl
  | table => rfl

theorem leads_after (op : Operation) (g : Grammar) (p : Parser) :
    p.feed.Leads (op.parser g p).feed := by
  have he := g.orderly_expression
  have hrule : ∀ kind, Rule.Onward (g.rule kind) := fun kind p => (g.orderly_rule kind p).leads
  cases op with
  | advance => exact Grammar.parser_advance_leads p
  | expect char complaint => exact (Rule.orderly_expect char complaint p).leads
  | number => exact (Rule.orderly_number p).leads
  | parenthesized => exact (he.parenthesized p).leads
  | identifier => exact (he.identifier p).leads
  | primary => exact (he.primary p).leads
  | operators least left => exact (g.orderly_operators he.primary least left p).leads
  | expression => exact (he p).leads
  | prototype => exact (Rule.orderly_prototype p).leads
  | rule kind => exact hrule kind p
  | attempt kind =>
    rw [parser, Rule.endState_attempt]
    exact hrule kind p
  | nextOutcome => exact Grammar.requestWithin_leads hrule _ p
  | limit => exact .here
  | table => exact .here

theorem leads_performAll (ops : List Operation) (g : Grammar) (p : Parser) :
    p.feed.Leads (performAll ops g p).2.feed := by
  induction ops generalizing g p with
  | nil => exact .here
  | cons op ops ih => exact (op.leads_after g p).trans (ih (op.grammar g) (op.parser g p))

theorem depth_performAll (ops : List Operation) (g : Grammar) (p : Parser) :
    (performAll ops g p).2.depth = p.depth := by
  induction ops generalizing g p with
  | nil => rfl
  | cons op ops ih => exact (ih (op.grammar g) (op.parser g p)).trans (op.depth_after g p)

end Operation

theorem Setup.depth_zero {setup : Setup} {source : Source} {g : Grammar} {p : Parser}
    (h : setup.parser source = .ok (g, p)) : p.depth = 0 := by
  simp only [parser] at h
  split at h
  · cases h
  · next s _ =>
    split at h
    · cases h
    · have hd := (Parser.unstarted s).depth_advance
      split at h
      · cases h
      · next hs =>
        cases h
        rw [Parser.start] at hs
        rw [hs] at hd
        exact hd

/-- The depth of a parser is after every operation what it was before, so it is zero between the
operations on a parser that has been set up, wherever the source fails. An expression is read below
the limit alone, and so are those in it. An attempt comes to a node or to a complaint about the
current token, unless the source fails otherwise than by exhaustion. -/
theorem Operation.depth_restored :
    (∀ (op : Operation) (g : Grammar) (p : Parser), (op.parser g p).depth = p.depth) ∧
    (∀ (g : Grammar) (p : Parser), g.expression p =
      if g.maxDepth ≤ p.depth then Rule.fail .tooDeep p
      else Rule.nested (do
        let left ← Rule.primary g.expression
        g.operators (Rule.primary g.expression) 0 left) p) ∧
    (∀ (setup : Setup) (source : Source) (g : Grammar) (p : Parser),
      setup.parser source = .ok (g, p) → ∀ ops, (performAll ops g p).2.depth = 0) ∧
    ∀ (g : Grammar) (kind : ConstructKind) (p : Parser),
      Settles p ((g.rule kind).attempt p) ∧
      ∀ e q, (g.rule kind).attempt p = .error e q ↔
        e ≠ .exhausted ∧ g.rule kind p = .error (.fault e) q := by
  refine ⟨depth_after, fun g p => g.expression_eq p.feed, fun setup source g p h ops => ?_,
    fun g kind p => ⟨(g.orderly_rule kind p).settles, fun e q => Rule.attempt_eq_error_iff⟩⟩
  rw [depth_performAll, Setup.depth_zero h]

theorem depth_restored_unreadable :
    let source : Source := { Source.ofText "f(1, (2" with pending := some ⟨6, .unreadable⟩ }
    ∃ g p q, ({} : Setup).parser source = .ok (g, p) ∧
      (g.rule .expression).attempt p = .error .unreadable q ∧ q.feed.current.text = "," ∧
      (Operation.performAll [.attempt .expression, .limit 1, .nextOutcome] g p).2.depth = 0 := by
  intro source
  have hrun : (match ({} : Setup).parser source with
      | .ok (g, p) =>
        match (g.rule .expression).attempt p with
        | .error .unreadable q => q.feed.current.text == ","
        | _ => false
      | .error _ => false) = true := by decide +kernel
  split at hrun
  · next g p hp =>
    split at hrun
    · next q ha =>
      have hdepth := Operation.depth_restored.2.2.1 {} source g p hp
      exact ⟨g, p, q, hp, ha, by simpa using hrun, hdepth _⟩
    · cases hrun
  · cases hrun

end Kaleidoscope
