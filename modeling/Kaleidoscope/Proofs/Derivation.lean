import Kaleidoscope.Program
import Kaleidoscope.Proofs.Rules

/-! What the grammar derives, and that a rule passes nothing else. Every derivation carries its
nesting: an expression counts one, and one more for each parenthesis or list of arguments that it
stands in. -/

set_option autoImplicit false

namespace Kaleidoscope

/-- What may be derived: a tail is what follows the first operand of an expression, and more
arguments are what follows the first one of a list. -/
inductive Symbol where
  | expression | primary | tail | arguments | moreArguments
  deriving DecidableEq, Repr

inductive Grammar.Derives (g : Grammar) : Symbol → Nat → List Token → Prop where
  | expression {m n : Nat} {u v : List Token} : Derives g .primary m u → Derives g .tail n v →
      Derives g .expression (max m n + 1) (u ++ v)
  | noOperator : Derives g .tail 0 []
  | operator {t : Token} {m n : Nat} {u v : List Token} : 0 < g.level t →
      Derives g .primary m u → Derives g .tail n v → Derives g .tail (max m n) (t :: (u ++ v))
  | number {t : Token} : t.kind = .number → t.payload ≠ .none → Derives g .primary 0 [t]
  | variable {t : Token} : t.kind = .identifier → Derives g .primary 0 [t]
  | call {name opening closing : Token} {n : Nat} {u : List Token} : name.kind = .identifier →
      opening.isChar "(" = true → Derives g .arguments n u → closing.isChar ")" = true →
      Derives g .primary n (name :: opening :: (u ++ [closing]))
  | parenthesized {opening closing : Token} {n : Nat} {u : List Token} :
      opening.isChar "(" = true → Derives g .expression n u → closing.isChar ")" = true →
      Derives g .primary n (opening :: (u ++ [closing]))
  | noArgument : Derives g .arguments 0 []
  | argument {m n : Nat} {u v : List Token} : Derives g .expression m u →
      Derives g .moreArguments n v → Derives g .arguments (max m n) (u ++ v)
  | lastArgument : Derives g .moreArguments 0 []
  | comma {t : Token} {m n : Nat} {u v : List Token} : t.isChar "," = true →
      Derives g .expression m u → Derives g .moreArguments n v →
      Derives g .moreArguments (max m n) (t :: (u ++ v))

inductive IsPrototype : List Token → Prop where
  | mk {name opening closing : Token} {params : List Token} : name.kind = .identifier →
      opening.isChar "(" = true → (∀ t ∈ params, t.kind = .identifier) →
      closing.isChar ")" = true → IsPrototype (name :: opening :: (params ++ [closing]))

/-- The constructs of each kind, with bodies that nest no deeper than is allowed. -/
inductive Grammar.Constructs (g : Grammar) : ConstructKind → List Token → Prop where
  | definition {t : Token} {n : Nat} {u v : List Token} : t.kind = .define → IsPrototype u →
      Derives g .expression n v → (n : Int) ≤ g.maxDepth →
      Constructs g .definition (t :: (u ++ v))
  | external {t : Token} {u : List Token} : t.kind = .external → IsPrototype u →
      Constructs g .external (t :: u)
  | expression {n : Nat} {u : List Token} : Derives g .expression n u → (n : Int) ≤ g.maxDepth →
      Constructs g .expression u

/-- A last identifier is not the name of a call, as long as no parenthesis comes next. -/
def OpenName (u : List Token) (next : Token) : Prop :=
  ∀ t, u.getLast? = some t → t.kind = .identifier → next.isChar "(" = false

theorem OpenName.append {u v : List Token} {t : Token} (hu : v = [] → OpenName u t)
    (hv : OpenName v t) : OpenName (u ++ v) t := by
  cases v with
  | nil => simpa using hu rfl
  | cons x v => simpa [OpenName, List.getLast?_append] using hv

theorem OpenName.append_passes {u v : List Token} {f f' : Feed} (hu : OpenName u f.current)
    (hp : f.Passes v f') (hv : OpenName v f'.current) : OpenName (u ++ v) f'.current := by
  refine .append ?_ hv
  intro hnil
  subst hnil
  rw [hp.eq_of_nil]
  exact hu

theorem OpenName.cons {u : List Token} {t next : Token} (ht : t.kind ≠ .identifier)
    (hu : OpenName u next) : OpenName (t :: u) next := by
  cases u with
  | nil => simp [OpenName, ht]
  | cons x u => simpa [OpenName] using hu

theorem openName_nil (t : Token) : OpenName [] t := by simp [OpenName]

theorem openName_of_closing {u : List Token} {t next : Token} (h : t.isChar ")" = true) :
    OpenName (u ++ [t]) next := by
  simp [OpenName, Token.kind_of_isChar h]

theorem IsPrototype.openName {u : List Token} (h : IsPrototype u) (next : Token) :
    OpenName u next := by
  obtain ⟨-, -, -, hc⟩ := h
  rw [← List.cons_append, ← List.cons_append]
  exact openName_of_closing hc

namespace Grammar

open Rule

variable {g : Grammar}

def Delimits (g : Grammar) : Symbol → List Token → Token → Prop
  | .expression, u, next | .tail, u, next => g.level next ≤ 0 ∧ OpenName u next
  | .primary, u, next => OpenName u next
  | .arguments, _, next | .moreArguments, _, next => next.isChar ")" = true

/-- What a rule with room for `k` levels leaves behind. -/
def Leaves {α : Type} (g : Grammar) (s : Symbol) (k : Nat) (_ : α) (u : List Token) (f : Feed) :
    Prop := (∃ m ≤ k, g.Derives s m u) ∧ g.Delimits s u f.current

theorem ends_number {f : Feed} {d k : Nat} (hk : f.current.kind = .number) :
    Ends f d (g.Leaves .primary k) (number ⟨f, d⟩) := by
  have hne : f.current.kind ≠ .endOfInput := by rw [hk]; decide
  have hl : ∀ f₁ : Feed, f.current.payload ≠ .none →
      (∃ m ≤ k, g.Derives .primary m [f.current]) ∧ OpenName [f.current] f₁.current := by
    intro f₁ hp
    exact ⟨⟨0, Nat.zero_le k, .number hk hp⟩, by simp [OpenName, hk]⟩
  simp only [number, current_bind]
  cases hp : f.current.payload with
  | none => exact ends_fail _
  | number v => exact ends_advance_bind hne fun f₁ _ => ends_pure (hl f₁ (by simp [hp]))
  | text s => exact ends_advance_bind hne fun f₁ _ => ends_pure (hl f₁ (by simp [hp]))

theorem ends_expect {s : String} {c : Complaint} {f : Feed} {d : Nat} :
    Ends f d (fun _ u _ => u = [f.current] ∧ f.current.isChar s = true)
      (expect s c ⟨f, d⟩) := by
  simp only [expect, current_bind]
  split
  · next hc =>
    have hk : f.current.kind ≠ .endOfInput := Token.kind_ne_of_isChar hc
    exact (ends_advance hk).imp fun _ u f₁ _ h => ⟨h.1, hc⟩
  · exact ends_fail c

section Nested

variable {e : Rule Node} {f : Feed} {d k : Nat}

theorem ends_parenthesized (he : ∀ f, Ends f d (g.Leaves .expression k) (e ⟨f, d⟩))
    (hc : f.current.isChar "(" = true) :
    Ends f d (g.Leaves .primary k) (parenthesized e ⟨f, d⟩) := by
  have hk : f.current.kind ≠ .endOfInput := Token.kind_ne_of_isChar hc
  refine ends_advance_bind hk fun f₁ _ => Ends.bind (he f₁) ?_
  intro n u f₂ _ h
  obtain ⟨⟨m, hm, hu⟩, -⟩ := h
  refine Ends.bind ends_expect ?_
  intro _ v f₃ _ h
  obtain ⟨rfl, hr⟩ := h
  refine ends_pure ⟨⟨m, hm, ?_⟩, ?_⟩
  · simpa using Derives.parenthesized hc hu hr
  · rw [List.append_nil, ← List.cons_append]
    exact openName_of_closing hr

theorem ends_argumentsAfter (he : ∀ f, Ends f d (g.Leaves .expression k) (e ⟨f, d⟩)) (n : Nat)
    (hn : f.size ≤ n) :
    Ends f d (g.Leaves .moreArguments k) (argumentsAfter e n ⟨f, d⟩) := by
  induction n generalizing f with
  | zero =>
    simp only [argumentsAfter, current_bind]
    split
    · next hc => exact ends_pure ⟨⟨0, Nat.zero_le k, .lastArgument⟩, hc⟩
    · split
      · next hc => simp [Feed.size, Token.kind_of_isChar hc] at hn
      · exact ends_fail _
  | succ n ih =>
    simp only [argumentsAfter, current_bind]
    split
    · next hc => exact ends_pure ⟨⟨0, Nat.zero_le k, .lastArgument⟩, hc⟩
    · split
      · next hc =>
        have hk : f.current.kind ≠ .endOfInput := Token.kind_ne_of_isChar hc
        refine ends_advance_bind hk fun f₁ ha => ?_
        rw [argumentsWithin_succ]
        refine Ends.bind (he f₁) ?_
        intro arg u f₂ hp h
        obtain ⟨⟨m, hm, hu⟩, -⟩ := h
        have hs := Feed.size_lt_of_advance hk ha
        have hs' := hp.size_le
        refine Ends.bind (ih (by omega)) ?_
        intro args v f₃ _ h
        obtain ⟨⟨m', hm', hv⟩, hl⟩ := h
        refine ends_pure ⟨⟨max m m', Nat.max_le.2 ⟨hm, hm'⟩, ?_⟩, hl⟩
        simpa using Derives.comma hc hu hv
      · exact ends_fail _

theorem ends_arguments (he : ∀ f, Ends f d (g.Leaves .expression k) (e ⟨f, d⟩)) :
    Ends f d (g.Leaves .arguments k) (arguments e ⟨f, d⟩) := by
  cases hc : f.current.isChar ")" with
  | true =>
    rw [arguments_none hc]
    exact .ok .here ⟨⟨0, Nat.zero_le k, .noArgument⟩, hc⟩
  | false =>
    rw [arguments_some hc, argumentsWithin_succ]
    refine Ends.bind (he f) ?_
    intro arg u f₁ hp h
    obtain ⟨⟨m, hm, hu⟩, -⟩ := h
    have hs := hp.size_le
    refine Ends.bind (ends_argumentsAfter he f.size (by omega)) ?_
    intro args v f₂ _ h
    obtain ⟨⟨m', hm', hv⟩, hl⟩ := h
    refine ends_pure ⟨⟨max m m', Nat.max_le.2 ⟨hm, hm'⟩, ?_⟩, hl⟩
    simpa using Derives.argument hu hv

theorem ends_identifier (he : ∀ f, Ends f d (g.Leaves .expression k) (e ⟨f, d⟩))
    (hi : f.current.kind = .identifier) :
    Ends f d (g.Leaves .primary k) (identifier e ⟨f, d⟩) := by
  have hk : f.current.kind ≠ .endOfInput := by rw [hi]; decide
  simp only [identifier, take, bind_assoc, pure_bind, current_bind]
  refine ends_advance_bind hk fun f₁ _ => ?_
  rw [current_bind]
  split
  · next hc =>
    have hk₁ : f₁.current.kind ≠ .endOfInput := Token.kind_ne_of_isChar hc
    refine ends_advance_bind hk₁ fun f₂ _ => Ends.bind (ends_arguments he) ?_
    intro args u f₃ _ h
    obtain ⟨⟨m, hm, hu⟩, hl⟩ := h
    have hk₃ : f₃.current.kind ≠ .endOfInput := Token.kind_ne_of_isChar hl
    refine ends_advance_bind hk₃ fun f₄ _ => ends_pure ⟨⟨m, hm, ?_⟩, ?_⟩
    · simpa using Derives.call hi hc hu hl
    · rw [← List.cons_append, ← List.cons_append]
      exact openName_of_closing hl
  · next hc =>
    refine ends_pure ⟨⟨0, Nat.zero_le k, .variable hi⟩, fun _ _ _ => ?_⟩
    simpa using hc

theorem ends_primary (he : ∀ f, Ends f d (g.Leaves .expression k) (e ⟨f, d⟩)) :
    Ends f d (g.Leaves .primary k) (primary e ⟨f, d⟩) := by
  by_cases hi : f.current.kind = .identifier
  · rw [primary_of_identifier hi]
    exact ends_identifier he hi
  by_cases hn : f.current.kind = .number
  · rw [primary_of_number hn]
    exact ends_number hn
  cases hc : f.current.isChar "(" with
  | true =>
    rw [primary_of_opening hc]
    exact ends_parenthesized he hc
  | false =>
    rw [primary_of_other hi hn hc]
    exact ends_fail _

theorem ends_linksWithin {operand : Rule Node}
    (ho : ∀ f, Ends f d (g.Leaves .primary k) (operand ⟨f, d⟩)) (n : Nat) (hn : f.size < n) :
    Ends f d (g.Leaves .tail k) (g.linksWithin operand 0 n ⟨f, d⟩) := by
  induction n generalizing f with
  | zero => omega
  | succ n ih =>
    by_cases hl : g.level f.current < 0
    · rw [linksWithin_stop hl]
      exact .ok .here ⟨⟨0, Nat.zero_le k, .noOperator⟩, by omega, openName_nil _⟩
    · have hpos : 0 < g.level f.current := by
        have := level_pos_or g f.current
        omega
      have hk := kind_ne_of_level_pos hpos
      simp only [linksWithin, current_bind, hl, if_false]
      refine ends_advance_bind hk fun f₁ ha => Ends.bind (ho f₁) ?_
      intro right u f₂ hp h
      obtain ⟨⟨m, hm, hu⟩, hnext⟩ := h
      have hs := Feed.size_lt_of_advance hk ha
      have hs' := hp.size_le
      refine Ends.bind (ih (by omega)) ?_
      intro links v f₃ hp' h
      obtain ⟨⟨m', hm', hv⟩, hd, hnext'⟩ := h
      refine ends_pure ⟨⟨max m m', Nat.max_le.2 ⟨hm, hm'⟩, ?_⟩, hd, ?_⟩
      · simpa using Derives.operator hpos hu hv
      · rw [List.append_nil]
        have hne : f.current.kind ≠ .identifier := by rw [kind_of_level_pos hpos]; decide
        exact .cons hne (OpenName.append_passes hnext hp' hnext')

theorem ends_expressionWithin (n : Nat) :
    Ends f d (g.Leaves .expression n) (g.expressionWithin n ⟨f, d⟩) := by
  induction n generalizing f d with
  | zero => exact ends_fail _
  | succ n ih =>
    rw [expressionWithin_succ]
    refine ends_nested (Ends.bind (ends_primary fun f => ih) ?_)
    intro left u f₁ _ h
    obtain ⟨⟨m, hm, hu⟩, hnext⟩ := h
    rw [operators_eq]
    refine Ends.bind (ends_linksWithin (fun f => ends_primary fun f => ih) _ (by simp)) ?_
    intro links v f₂ hp h
    obtain ⟨⟨m', hm', hv⟩, hd, hnext'⟩ := h
    refine ends_pure ⟨⟨max m m' + 1, by omega, ?_⟩, hd, ?_⟩
    · simpa using Derives.expression hu hv
    · rw [List.append_nil]
      exact OpenName.append_passes hnext hp hnext'

end Nested

section Constructs

variable {f : Feed}

theorem ends_parametersWithin {d : Nat} (n : Nat) (hn : f.size < n)
    (hk : f.current.kind ≠ .endOfInput) :
    Ends f d (fun _ u _ => ∃ ps, u = f.current :: ps ∧ ∀ t ∈ ps, t.kind = .identifier)
      (parametersWithin n ⟨f, d⟩) := by
  induction n generalizing f with
  | zero => omega
  | succ n ih =>
    refine ends_advance_bind hk fun f₁ ha => ?_
    rw [current_bind]
    split
    · next hi =>
      have hs := Feed.size_lt_of_advance hk ha
      refine Ends.bind (ih (by omega) (by rw [hi]; decide)) ?_
      intro params u f₂ _ h
      obtain ⟨ps, rfl, hps⟩ := h
      exact ends_pure ⟨f₁.current :: ps, by simp, List.forall_mem_cons.2 ⟨hi, hps⟩⟩
    · exact ends_pure ⟨[], rfl, by simp⟩

theorem ends_prototype {d : Nat} :
    Ends f d (fun _ u _ => IsPrototype u) (prototype ⟨f, d⟩) := by
  simp only [prototype, current_bind]
  by_cases hi : f.current.kind = .identifier
  · have hk : f.current.kind ≠ .endOfInput := by rw [hi]; decide
    simp only [hi, ne_eq, not_true_eq_false, if_false]
    refine ends_advance_bind hk fun f₁ ha => ?_
    rw [current_bind]
    cases hc : f₁.current.isChar "(" with
    | true =>
      have hk₁ : f₁.current.kind ≠ .endOfInput := Token.kind_ne_of_isChar hc
      simp only [Bool.not_true, Bool.false_eq_true, if_false, turns_bind]
      refine Ends.bind (ends_parametersWithin _ (by simp) hk₁) ?_
      intro params u f₂ _ h
      obtain ⟨ps, rfl, hps⟩ := h
      refine Ends.bind ends_expect ?_
      intro _ v f₃ _ h
      obtain ⟨rfl, hr⟩ := h
      refine ends_pure ?_
      simpa using IsPrototype.mk hi hc hps hr
    | false =>
      simp only [Bool.not_false, if_true]
      exact ends_fail_bind
  · simp only [ne_eq, hi, not_false_eq_true, if_true]
    exact ends_fail_bind

theorem Derives.one_le {n : Nat} {u : List Token} (h : g.Derives .expression n u) : 1 ≤ n := by
  cases h; omega

theorem ends_expression {d : Nat} :
    Ends f d (g.Leaves .expression (g.room d)) (g.expression ⟨f, d⟩) :=
  ends_expressionWithin _

def Closes (g : Grammar) : ConstructKind → List Token → Token → Prop
  | .external, _, _ => True
  | .definition, u, next | .expression, u, next => g.Delimits .expression u next

theorem le_maxDepth {n : Nat} (h : 1 ≤ n) (hn : n ≤ g.room 0) : (n : Int) ≤ g.maxDepth := by
  simp only [room] at hn
  omega

/-- A rule at depth zero passes a construct of its kind, or no more than it complains of. -/
theorem ends_rule (kind : ConstructKind) :
    Ends f 0 (fun _ u f₁ => g.Constructs kind u ∧ g.Closes kind u f₁.current)
      (g.rule kind ⟨f, 0⟩) := by
  cases kind with
  | definition =>
    simp only [rule, definition, current_bind]
    by_cases hd : f.current.kind = .define
    · simp only [hd, ne_eq, not_true_eq_false, if_false]
      refine ends_advance_bind (by rw [hd]; decide) fun f₁ _ => Ends.bind ends_prototype ?_
      intro proto u f₂ _ hu
      refine Ends.bind ends_expression ?_
      intro body v f₃ _ h
      obtain ⟨⟨n, hn, hv⟩, hl, ho⟩ := h
      refine ends_pure ⟨?_, hl, ?_⟩
      · simpa using Constructs.definition hd hu hv (le_maxDepth hv.one_le hn)
      · rw [List.append_nil]
        exact .cons (by rw [hd]; decide) (.append (fun _ => hu.openName _) ho)
    · simp only [ne_eq, hd, not_false_eq_true, if_true]
      exact ends_fail_bind
  | external =>
    simp only [rule, external, current_bind]
    by_cases hx : f.current.kind = .external
    · simp only [hx, ne_eq, not_true_eq_false, if_false]
      refine ends_advance_bind (by rw [hx]; decide) fun f₁ _ => ends_prototype.imp ?_
      intro proto u f₂ _ hu
      exact ⟨.external hx hu, trivial⟩
    · simp only [ne_eq, hx, not_false_eq_true, if_true]
      exact ends_fail_bind
  | expression =>
    simp only [rule, standalone, current_bind]
    refine Ends.bind ends_expression ?_
    intro body u f₁ _ h
    obtain ⟨⟨n, hn, hu⟩, hl, ho⟩ := h
    refine ends_pure ⟨?_, hl, ?_⟩
    · simpa using Constructs.expression hu (le_maxDepth hu.one_le hn)
    · simpa using ho

end Constructs

end Grammar

end Kaleidoscope
