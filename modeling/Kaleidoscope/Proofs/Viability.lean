import Kaleidoscope.Proofs.Causality
import Kaleidoscope.Proofs.Headroom

/-! Where a rule complains, what it has passed can still be completed. Rule by rule, the tokens that
have been passed by then are the beginning of something that the grammar derives, unless the
complaint is about too deep a nesting. -/

set_option autoImplicit false

namespace Kaleidoscope

def Token.Occurs (t : Token) : Prop := ∃ text, t ∈ lex text

def Token.spare (l : List Char) : Token := .ofLexeme ⟨1, 1⟩ l

/-- The lexemes that beginnings are completed with. -/
def spareLexemes : List (List Char) := [['x'], ['('], [')'], "def".toList, "extern".toList]

theorem occurs_spare {l : List Char} (h : l ∈ spareLexemes) : (Token.spare l).Occurs := by
  have hall : spareLexemes.all fun l => decide (Token.spare l ∈ lex (String.ofList l)) := by
    decide +kernel
  exact ⟨String.ofList l, of_decide_eq_true (List.all_eq_true.1 hall l h)⟩

theorem isChar_spare_opening : (Token.spare ['(']).isChar "(" = true := rfl

theorem isChar_spare_closing : (Token.spare [')']).isChar ")" = true := rfl

namespace Grammar

/-- The tokens begin something that is derived, and can be completed by tokens of texts. -/
def Begun (g : Grammar) (s : Symbol) (k : Nat) (u : List Token) : Prop :=
  ∃ v m, (∀ t ∈ v, t.Occurs) ∧ m ≤ k ∧ g.Derives s m (u ++ v)

end Grammar

namespace Rule

variable {α β : Type} {f : Feed} {d : Nat} {begun : List Token → Prop}

/-- Where the rule complains of anything but too deep a nesting, it has passed tokens of which
`begun` holds. -/
def Stalls (f : Feed) (begun : List Token → Prop) (r : EStateM.Result Stop Parser α) : Prop :=
  ∀ c q, r = .error (.diagnostic c) q → c.complaint ≠ .tooDeep → ∃ u, f.Passes u q.feed ∧ begun u

theorem Stalls.imp {begun' : List Token → Prop} {r : EStateM.Result Stop Parser α}
    (h : Stalls f begun r) (hb : ∀ u, begun u → begun' u) : Stalls f begun' r := by
  intro c q hr hc
  obtain ⟨u, hu, hbu⟩ := h c q hr hc
  exact ⟨u, hu, hb u hbu⟩

theorem stalls_pure (a : α) : Stalls f begun ((pure a : Rule α) ⟨f, d⟩) := by
  intro c q h
  cases h

theorem stalls_fail {c : Complaint} (h : begun []) :
    Stalls f begun ((fail c : Rule α) ⟨f, d⟩) := by
  intro c' q hr _
  cases hr
  exact ⟨[], .here, h⟩

theorem stalls_fail_bind {c : Complaint} {k : α → Rule β} (h : begun []) :
    Stalls f begun ((fail c >>= k) ⟨f, d⟩) := stalls_fail h

theorem Stalls.bind {x : Rule α} {k : α → Rule β} {good : α → List Token → Feed → Prop}
    (hx : Stalls f begun (x ⟨f, d⟩)) (he : Ends f d good (x ⟨f, d⟩))
    (hk : ∀ a u f₁, f.Passes u f₁ → good a u f₁ →
      Stalls f₁ (fun v => begun (u ++ v)) (k a ⟨f₁, d⟩)) :
    Stalls f begun ((x >>= k) ⟨f, d⟩) := by
  intro c q h hc
  cases hr : x ⟨f, d⟩ with
  | ok a r =>
    rw [hr] at he
    rw [bind_ok hr] at h
    cases he with
    | ok hp hg =>
      obtain ⟨v, hv, hb⟩ := hk a _ _ hp hg c q h hc
      exact ⟨_, hp.append hv, hb⟩
  | error e r =>
    rw [bind_error hr] at h
    cases h
    exact hx c q hr hc

theorem stalls_advance_bind {k : Unit → Rule β} (hk : f.current.kind ≠ .endOfInput)
    (h : ∀ f₁, f.advance = .ok () f₁ →
      Stalls f₁ (fun v => begun (f.current :: v)) (k () ⟨f₁, d⟩)) :
    Stalls f begun ((advance >>= k) ⟨f, d⟩) := by
  intro c q hr hc
  cases ha : f.advance with
  | ok _ f₁ =>
    rw [advance_bind ha] at hr
    obtain ⟨u, hu, hb⟩ := h f₁ ha c q hr hc
    exact ⟨_, .token hk ha hu, hb⟩
  | error e f₁ =>
    rw [bind_error (advance_error ha)] at hr
    cases hr

theorem stalls_nested {x : Rule α} (h : Stalls f begun (x ⟨f, d + 1⟩)) :
    Stalls f begun (nested x ⟨f, d⟩) := by
  intro c q hr hc
  simp only [nested] at hr
  cases hx : x ⟨f, d + 1⟩ with
  | ok a r => rw [hx] at hr; cases hr
  | error e r =>
    rw [hx] at hr
    cases hr
    exact h c r hx hc

theorem stalls_expect {s : String} {c : Complaint} (h : begun []) :
    Stalls f begun (expect s c ⟨f, d⟩) := by
  simp only [expect, current_bind]
  split
  · intro c' q hr
    cases ha : f.advance with
    | ok _ f₁ => rw [advance_ok ha] at hr; cases hr
    | error e f₁ => rw [advance_error ha] at hr; cases hr
  · exact stalls_fail h

end Rule

namespace Grammar

open Rule

variable {g : Grammar}

section Begun

variable {k m : Nat} {s : Symbol} {t : Token} {u v : List Token}

theorem begun_of_derives (h : ∃ m ≤ k, g.Derives s m u) : g.Begun s k u := by
  obtain ⟨m, hm, hu⟩ := h
  exact ⟨[], m, by simp, hm, by rwa [List.append_nil]⟩

theorem Begun.within {s' : Symbol} {k' : Nat} {u' : List Token} (h : g.Begun s k u)
    (w : List Token) (hw : ∀ t ∈ w, t.Occurs)
    (hd : ∀ m v, m ≤ k → g.Derives s m (u ++ v) →
      ∃ m' ≤ k', g.Derives s' m' (u' ++ (v ++ w))) : g.Begun s' k' u' := by
  obtain ⟨v, m, hv, hm, hu⟩ := h
  obtain ⟨m', hm', hu'⟩ := hd m v hm hu
  exact ⟨v ++ w, m', List.forall_mem_append.2 ⟨hv, hw⟩, hm', hu'⟩

theorem begun_primary (k : Nat) : g.Begun .primary k [] := by
  refine ⟨[.spare ['x']], 0, ?_, Nat.zero_le k, .variable rfl⟩
  simpa using occurs_spare (by decide)

theorem Begun.expression (h : g.Begun .primary k u) : g.Begun .expression (k + 1) u := by
  refine h.within [] (by simp) fun m v hm hu => ⟨max m 0 + 1, by omega, ?_⟩
  rw [← List.append_assoc]
  exact .expression hu .noOperator

theorem Begun.expression_tail (hu : ∃ m ≤ k, g.Derives .primary m u) (h : g.Begun .tail k v) :
    g.Begun .expression (k + 1) (u ++ v) := by
  obtain ⟨n, hn, hu⟩ := hu
  refine h.within [] (by simp) fun m v' hm hv => ⟨max n m + 1, by omega, ?_⟩
  simpa using Derives.expression hu hv

theorem Begun.operator (ht : 0 < g.level t) (h : g.Begun .primary k u) :
    g.Begun .tail k (t :: u) := by
  refine h.within [] (by simp) fun m v hm hu => ⟨max m 0, by omega, ?_⟩
  simpa using Derives.operator ht hu .noOperator

theorem Begun.operator_tail (ht : 0 < g.level t) (hu : ∃ m ≤ k, g.Derives .primary m u)
    (h : g.Begun .tail k v) : g.Begun .tail k (t :: (u ++ v)) := by
  obtain ⟨n, hn, hu⟩ := hu
  refine h.within [] (by simp) fun m v' hm hv => ⟨max n m, by omega, ?_⟩
  simpa using Derives.operator ht hu hv

theorem Begun.parenthesized (ht : t.isChar "(" = true) (h : g.Begun .expression k u) :
    g.Begun .primary k (t :: u) := by
  refine h.within [.spare [')']] (by simpa using occurs_spare (by decide)) fun m v hm hu => ?_
  refine ⟨m, hm, ?_⟩
  simpa using Derives.parenthesized ht hu isChar_spare_closing

theorem Begun.call {name : Token} (hn : name.kind = .identifier) (ht : t.isChar "(" = true)
    (h : g.Begun .arguments k u) : g.Begun .primary k (name :: t :: u) := by
  refine h.within [.spare [')']] (by simpa using occurs_spare (by decide)) fun m v hm hu => ?_
  refine ⟨m, hm, ?_⟩
  simpa using Derives.call hn ht hu isChar_spare_closing

theorem Begun.argument (h : g.Begun .expression k u) : g.Begun .arguments k u := by
  refine h.within [] (by simp) fun m v hm hu => ⟨max m 0, by omega, ?_⟩
  rw [← List.append_assoc]
  exact .argument hu .lastArgument

theorem Begun.argument_more (hu : ∃ m ≤ k, g.Derives .expression m u)
    (h : g.Begun .moreArguments k v) : g.Begun .arguments k (u ++ v) := by
  obtain ⟨n, hn, hu⟩ := hu
  refine h.within [] (by simp) fun m v' hm hv => ⟨max n m, by omega, ?_⟩
  simpa using Derives.argument hu hv

theorem Begun.comma (ht : t.isChar "," = true) (h : g.Begun .expression k u) :
    g.Begun .moreArguments k (t :: u) := by
  refine h.within [] (by simp) fun m v hm hu => ⟨max m 0, by omega, ?_⟩
  simpa using Derives.comma ht hu .lastArgument

theorem Begun.comma_more (ht : t.isChar "," = true) (hu : ∃ m ≤ k, g.Derives .expression m u)
    (h : g.Begun .moreArguments k v) : g.Begun .moreArguments k (t :: (u ++ v)) := by
  obtain ⟨n, hn, hu⟩ := hu
  refine h.within [] (by simp) fun m v' hm hv => ⟨max n m, by omega, ?_⟩
  simpa using Derives.comma ht hu hv

end Begun

section Nested

variable {e : Rule Node} {f : Feed} {d k : Nat}

theorem stalls_number (k : Nat) (hk : f.current.kind = .number) :
    Stalls f (g.Begun .primary k) (number ⟨f, d⟩) := by
  have hne : f.current.kind ≠ .endOfInput := by rw [hk]; decide
  simp only [number, current_bind]
  cases f.current.payload with
  | none => exact stalls_fail (begun_primary k)
  | number v => exact stalls_advance_bind hne fun f₁ _ => stalls_pure _
  | text s => exact stalls_advance_bind hne fun f₁ _ => stalls_pure _

variable (he : ∀ f, Ends f d (g.Leaves .expression k) (e ⟨f, d⟩))
variable (hs : ∀ f, Stalls f (g.Begun .expression k) (e ⟨f, d⟩))

include he hs

theorem stalls_parenthesized (hc : f.current.isChar "(" = true) :
    Stalls f (g.Begun .primary k) (parenthesized e ⟨f, d⟩) := by
  refine stalls_advance_bind (Token.kind_ne_of_isChar hc) fun f₁ _ => ?_
  refine Stalls.bind ((hs f₁).imp fun u hu => hu.parenthesized hc) (he f₁) ?_
  intro n u f₂ _ h
  refine Stalls.bind (stalls_expect ?_) ends_expect fun _ _ _ _ _ => stalls_pure _
  rw [List.append_nil]
  exact (begun_of_derives h.1).parenthesized hc

theorem stalls_argumentsAfter (n : Nat) (hn : f.size ≤ n) :
    Stalls f (g.Begun .moreArguments k) (argumentsAfter e n ⟨f, d⟩) := by
  have hlast : g.Begun .moreArguments k [] :=
    begun_of_derives ⟨0, Nat.zero_le k, .lastArgument⟩
  induction n generalizing f with
  | zero =>
    simp only [argumentsAfter, current_bind]
    split
    · exact stalls_pure _
    · split
      · next hc => simp [Feed.size, Token.kind_of_isChar hc] at hn
      · exact stalls_fail hlast
  | succ n ih =>
    simp only [argumentsAfter, current_bind]
    split
    · exact stalls_pure _
    · split
      · next hc =>
        have hk : f.current.kind ≠ .endOfInput := Token.kind_ne_of_isChar hc
        refine stalls_advance_bind hk fun f₁ ha => ?_
        rw [argumentsWithin_succ]
        refine Stalls.bind ((hs f₁).imp fun u hu => hu.comma hc) (he f₁) ?_
        intro arg u f₂ hp h
        have hlt := Feed.size_lt_of_advance hk ha
        have hle := hp.size_le
        refine Stalls.bind ((ih (by omega)).imp fun v hv => Begun.comma_more hc h.1 hv)
          (ends_argumentsAfter he n (by omega)) fun _ _ _ _ _ => stalls_pure _
      · exact stalls_fail hlast

theorem stalls_arguments : Stalls f (g.Begun .arguments k) (arguments e ⟨f, d⟩) := by
  cases hc : f.current.isChar ")" with
  | true =>
    rw [arguments_none hc]
    exact stalls_pure _
  | false =>
    rw [arguments_some hc, argumentsWithin_succ]
    refine Stalls.bind ((hs f).imp fun u hu => hu.argument) (he f) ?_
    intro arg u f₁ hp h
    have hle := hp.size_le
    have hsize : f₁.size ≤ f.size := by omega
    exact Stalls.bind ((stalls_argumentsAfter he hs f.size hsize).imp fun v hv =>
      Begun.argument_more h.1 hv) (ends_argumentsAfter he f.size hsize)
      fun _ _ _ _ _ => stalls_pure _

theorem stalls_identifier (hi : f.current.kind = .identifier) :
    Stalls f (g.Begun .primary k) (identifier e ⟨f, d⟩) := by
  have hk : f.current.kind ≠ .endOfInput := by rw [hi]; decide
  simp only [identifier, take, bind_assoc, pure_bind, current_bind]
  refine stalls_advance_bind hk fun f₁ _ => ?_
  rw [current_bind]
  split
  · next hc =>
    have hk₁ : f₁.current.kind ≠ .endOfInput := Token.kind_ne_of_isChar hc
    refine stalls_advance_bind hk₁ fun f₂ _ => ?_
    refine Stalls.bind ((stalls_arguments he hs).imp fun u hu => hu.call hi hc)
      (ends_arguments he) ?_
    intro args u f₃ _ h
    have hk₃ : f₃.current.kind ≠ .endOfInput := Token.kind_ne_of_isChar h.2
    exact stalls_advance_bind hk₃ fun f₄ _ => stalls_pure _
  · exact stalls_pure _

theorem stalls_primary : Stalls f (g.Begun .primary k) (primary e ⟨f, d⟩) := by
  by_cases hi : f.current.kind = .identifier
  · rw [primary_of_identifier hi]
    exact stalls_identifier he hs hi
  by_cases hn : f.current.kind = .number
  · rw [primary_of_number hn]
    exact stalls_number k hn
  cases hc : f.current.isChar "(" with
  | true =>
    rw [primary_of_opening hc]
    exact stalls_parenthesized he hs hc
  | false =>
    rw [primary_of_other hi hn hc]
    exact stalls_fail (begun_primary k)

omit he hs

theorem stalls_linksWithin {operand : Rule Node}
    (ho : ∀ f, Ends f d (g.Leaves .primary k) (operand ⟨f, d⟩))
    (hs : ∀ f, Stalls f (g.Begun .primary k) (operand ⟨f, d⟩)) (n : Nat) (hn : f.size < n) :
    Stalls f (g.Begun .tail k) (g.linksWithin operand 0 n ⟨f, d⟩) := by
  induction n generalizing f with
  | zero => omega
  | succ n ih =>
    by_cases hl : g.level f.current < 0
    · rw [linksWithin_stop hl]
      exact stalls_pure _
    · have hpos : 0 < g.level f.current := by
        have := level_pos_or g f.current
        omega
      have hk := kind_ne_of_level_pos hpos
      simp only [linksWithin, current_bind, hl, if_false]
      refine stalls_advance_bind hk fun f₁ ha => ?_
      refine Stalls.bind ((hs f₁).imp fun u hu => hu.operator hpos) (ho f₁) ?_
      intro right u f₂ hp h
      have hlt := Feed.size_lt_of_advance hk ha
      have hle := hp.size_le
      exact Stalls.bind ((ih (by omega)).imp fun v hv => Begun.operator_tail hpos h.1 hv)
        (ends_linksWithin ho n (by omega)) fun _ _ _ _ _ => stalls_pure _

theorem stalls_expressionWithin (n : Nat) :
    Stalls f (g.Begun .expression n) (g.expressionWithin n ⟨f, d⟩) := by
  induction n generalizing f d with
  | zero =>
    intro c q h hc
    cases h
    exact absurd rfl hc
  | succ n ih =>
    have he : ∀ d f, Ends f d (g.Leaves .expression n) (g.expressionWithin n ⟨f, d⟩) :=
      fun d f => ends_expressionWithin n
    have hp : ∀ f, Stalls f (g.Begun .primary n) (primary (g.expressionWithin n) ⟨f, d + 1⟩) :=
      fun f => stalls_primary (he (d + 1)) fun f => ih
    have ho : ∀ f, Ends f (d + 1) (g.Leaves .primary n)
        (primary (g.expressionWithin n) ⟨f, d + 1⟩) := fun f => ends_primary (he (d + 1))
    rw [expressionWithin_succ]
    refine stalls_nested (Stalls.bind ((hp f).imp fun u hu => hu.expression) (ho f) ?_)
    intro left u f₁ _ h
    rw [operators_eq]
    exact Stalls.bind ((stalls_linksWithin ho hp _ (by simp)).imp fun v hv =>
      Begun.expression_tail h.1 hv) (ends_linksWithin ho _ (by simp)) fun _ _ _ _ _ =>
      stalls_pure _

end Nested

section Constructs

variable {f : Feed} {d : Nat}

def BegunPrototype (u : List Token) : Prop := ∃ v, (∀ t ∈ v, t.Occurs) ∧ IsPrototype (u ++ v)

def BegunConstruct (g : Grammar) (kind : ConstructKind) (u : List Token) : Prop :=
  ∃ v, (∀ t ∈ v, t.Occurs) ∧ g.Constructs kind (u ++ v)

theorem begunPrototype_list {name opening : Token} {ps : List Token}
    (hn : name.kind = .identifier) (ho : opening.isChar "(" = true)
    (hps : ∀ t ∈ ps, t.kind = .identifier) : BegunPrototype (name :: opening :: ps) :=
  ⟨[.spare [')']], by simpa using occurs_spare (by decide),
    by simpa using IsPrototype.mk hn ho hps isChar_spare_closing⟩

theorem begunPrototype_name {name : Token} (hn : name.kind = .identifier) :
    BegunPrototype [name] := by
  obtain ⟨v, hv, hu⟩ := begunPrototype_list hn isChar_spare_opening (List.forall_mem_nil _)
  exact ⟨.spare ['('] :: v, List.forall_mem_cons.2 ⟨occurs_spare (by decide), hv⟩, hu⟩

theorem begunPrototype_nil : BegunPrototype [] := by
  obtain ⟨v, hv, hu⟩ := begunPrototype_name (rfl : (Token.spare ['x']).kind = .identifier)
  exact ⟨.spare ['x'] :: v, List.forall_mem_cons.2 ⟨occurs_spare (by decide), hv⟩, hu⟩

theorem stalls_parametersWithin (n : Nat) (hk : f.current.kind ≠ .endOfInput)
    (begun : List Token → Prop) : Stalls f begun (parametersWithin n ⟨f, d⟩) := by
  induction n generalizing f begun with
  | zero => exact stalls_pure _
  | succ n ih =>
    refine stalls_advance_bind hk fun f₁ _ => ?_
    rw [current_bind]
    split
    · next hi =>
      intro c q h hc
      cases hr : parametersWithin n ⟨f₁, d⟩ with
      | ok ps r => rw [bind_ok hr] at h; cases h
      | error e r =>
        rw [bind_error hr] at h
        cases h
        exact ih (by rw [hi]; decide) _ c q hr hc
    · exact stalls_pure _

theorem stalls_prototype : Stalls f BegunPrototype (prototype ⟨f, d⟩) := by
  simp only [prototype, current_bind]
  by_cases hi : f.current.kind = .identifier
  · have hk : f.current.kind ≠ .endOfInput := by rw [hi]; decide
    simp only [hi, ne_eq, not_true_eq_false, if_false]
    refine stalls_advance_bind hk fun f₁ _ => ?_
    rw [current_bind]
    cases hc : f₁.current.isChar "(" with
    | true =>
      have hk₁ : f₁.current.kind ≠ .endOfInput := Token.kind_ne_of_isChar hc
      simp only [Bool.not_true, Bool.false_eq_true, if_false, turns_bind]
      refine Stalls.bind (stalls_parametersWithin _ hk₁ _)
        (ends_parametersWithin _ (by simp) hk₁) ?_
      intro params u f₂ _ h
      obtain ⟨ps, rfl, hps⟩ := h
      refine Stalls.bind (stalls_expect ?_) ends_expect fun _ _ _ _ _ => stalls_pure _
      simpa using begunPrototype_list hi hc hps
    | false =>
      simp only [Bool.not_false, if_true]
      exact stalls_fail_bind (begunPrototype_name hi)
  · simp only [ne_eq, hi, not_false_eq_true, if_true]
    exact stalls_fail_bind begunPrototype_nil

variable (hM : 1 ≤ g.maxDepth)

theorem BegunConstruct.of_expression {u : List Token} (h : g.Begun .expression (g.room 0) u) :
    g.BegunConstruct .expression u := by
  obtain ⟨v, m, hv, hm, hu⟩ := h
  exact ⟨v, hv, .expression hu (le_maxDepth hu.one_le hm)⟩

theorem BegunConstruct.of_body {t : Token} {u v : List Token} (ht : t.kind = .define)
    (hu : IsPrototype u) (h : g.Begun .expression (g.room 0) v) :
    g.BegunConstruct .definition (t :: (u ++ v)) := by
  obtain ⟨v', m, hv', hm, hv⟩ := h
  refine ⟨v', hv', ?_⟩
  simpa using Constructs.definition ht hu hv (le_maxDepth hv.one_le hm)

theorem BegunConstruct.of_external {t : Token} {u : List Token} (ht : t.kind = .external)
    (h : BegunPrototype u) : g.BegunConstruct .external (t :: u) := by
  obtain ⟨v, hv, hu⟩ := h
  exact ⟨v, hv, .external ht hu⟩

include hM

theorem begun_room : g.Begun .expression (g.room 0) [] := by
  obtain ⟨n, hn⟩ : ∃ n, g.room 0 = n + 1 := ⟨g.room 0 - 1, by simp only [room]; omega⟩
  rw [hn]
  exact (begun_primary n).expression

theorem BegunConstruct.of_signature {t : Token} {u : List Token} (ht : t.kind = .define)
    (h : BegunPrototype u) : g.BegunConstruct .definition (t :: u) := by
  obtain ⟨v, hv, hu⟩ := h
  obtain ⟨w, hw, hc⟩ := BegunConstruct.of_body ht hu (begun_room hM)
  exact ⟨v ++ w, List.forall_mem_append.2 ⟨hv, hw⟩, by simpa using hc⟩

/-- Where the rule for a construct complains, it has passed what begins one. -/
theorem stalls_rule (kind : ConstructKind) :
    Stalls f (g.BegunConstruct kind) (g.rule kind ⟨f, 0⟩) := by
  cases kind with
  | definition =>
    simp only [rule, definition, current_bind]
    by_cases hd : f.current.kind = .define
    · simp only [hd, ne_eq, not_true_eq_false, if_false]
      refine stalls_advance_bind (by rw [hd]; decide) fun f₁ _ => ?_
      refine Stalls.bind (stalls_prototype.imp fun u hu => .of_signature hM hd hu)
        ends_prototype ?_
      intro proto u f₂ _ hu
      exact Stalls.bind ((stalls_expressionWithin _).imp fun v hv => .of_body hd hu hv)
        ends_expression fun _ _ _ _ _ => stalls_pure _
    · simp only [ne_eq, hd, not_false_eq_true, if_true]
      refine stalls_fail_bind ?_
      obtain ⟨v, hv, hc⟩ := BegunConstruct.of_signature hM (t := .spare "def".toList) rfl
        begunPrototype_nil
      exact ⟨_, List.forall_mem_cons.2 ⟨occurs_spare (by decide), hv⟩, hc⟩
  | external =>
    simp only [rule, external, current_bind]
    by_cases hx : f.current.kind = .external
    · simp only [hx, ne_eq, not_true_eq_false, if_false]
      exact stalls_advance_bind (by rw [hx]; decide) fun f₁ _ =>
        stalls_prototype.imp fun u hu => .of_external hx hu
    · simp only [ne_eq, hx, not_false_eq_true, if_true]
      refine stalls_fail_bind ?_
      obtain ⟨v, hv, hc⟩ := BegunConstruct.of_external (g := g) (t := .spare "extern".toList) rfl
        begunPrototype_nil
      exact ⟨_, List.forall_mem_cons.2 ⟨occurs_spare (by decide), hv⟩, hc⟩
  | expression =>
    simp only [rule, standalone, current_bind]
    exact Stalls.bind ((stalls_expressionWithin _).imp fun u hu => .of_expression hu)
      ends_expression fun _ _ _ _ _ => stalls_pure _

end Constructs

end Grammar

end Kaleidoscope
