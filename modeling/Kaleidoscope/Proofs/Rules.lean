import Kaleidoscope.Proofs.Passage

/-! Rules step by step. A rule that ends well does so by steps that end well; `Ends` says of any
end that it lies behind tokens the rule has passed: of a good end what it leaves, of a complaint
that it is about the current token, of a fault that the source raised it. -/

set_option autoImplicit false

namespace Kaleidoscope.Rule

variable {α β : Type}

theorem bind_eq_ok {x : Rule α} {k : α → Rule β} {p r : Parser} {b : β}
    (h : (x >>= k) p = .ok b r) : ∃ a q, x p = .ok a q ∧ k a q = .ok b r := by
  cases hx : x p with
  | ok a q => exact ⟨a, q, rfl, by rw [← h, bind_ok hx]⟩
  | error e q => rw [bind_error hx] at h; cases h

theorem bind_of_eq {x y : Rule α} {k : α → Rule β} {p q : Parser} (h : x p = y q) :
    (x >>= k) p = (y >>= k) q := by
  cases hy : y q with
  | ok a r => rw [bind_ok hy, bind_ok (h.trans hy)]
  | error e r => rw [bind_error hy, bind_error (h.trans hy)]

theorem bind_congr {x : Rule α} {k k' : α → Rule β} {p : Parser}
    (h : ∀ a q, x p = .ok a q → k a q = k' a q) : (x >>= k) p = (x >>= k') p := by
  cases hx : x p with
  | ok a q => rw [bind_ok hx, bind_ok hx, h a q hx]
  | error e q => rw [bind_error hx, bind_error hx]

theorem current_bind {k : Token → Rule β} {p : Parser} :
    (current >>= k) p = k p.feed.current p := rfl

theorem turns_bind {k : Nat → Rule β} {p : Parser} :
    (turns >>= k) p = k (p.feed.size + 1) p := rfl

theorem advance_ok {f f₁ : Feed} {d : Nat} (h : f.advance = .ok () f₁) :
    advance ⟨f, d⟩ = .ok () ⟨f₁, d⟩ := by
  simp only [advance, Parser.advance, h]

theorem advance_error {f f₁ : Feed} {d : Nat} {e : Fault} (h : f.advance = .error e f₁) :
    advance ⟨f, d⟩ = .error (.fault e) ⟨f₁, d⟩ := by
  simp only [advance, Parser.advance, h]

theorem advance_bind {k : Unit → Rule β} {f f₁ : Feed} {d : Nat} (h : f.advance = .ok () f₁) :
    (advance >>= k) ⟨f, d⟩ = k () ⟨f₁, d⟩ := bind_ok (advance_ok h)

section Ends

/-- How a rule may end that starts on the feed `f` at depth `d`: behind tokens that it has passed,
with a result, on a complaint about the current token, or where the source failed. -/
inductive Ends (f : Feed) (d : Nat) (good : α → List Token → Feed → Prop) :
    EStateM.Result Stop Parser α → Prop where
  | ok {a : α} {u : List Token} {f₁ : Feed} : f.Passes u f₁ → good a u f₁ →
      Ends f d good (.ok a ⟨f₁, d⟩)
  | complaint {c : Complaint} {u : List Token} {f₁ : Feed} : f.Passes u f₁ →
      Ends f d good (.error (.diagnostic (.atToken f₁.current c)) ⟨f₁, d⟩)
  | fault {e : Fault} {u : List Token} {f₁ f₂ : Feed} : f.Passes u f₁ →
      f₁.advance = .error e f₂ → Ends f d good (.error (.fault e) ⟨f₂, d⟩)

variable {f : Feed} {d : Nat}

theorem Ends.imp {good good' : α → List Token → Feed → Prop}
    {r : EStateM.Result Stop Parser α} (h : Ends f d good r)
    (hg : ∀ a u f₁, f.Passes u f₁ → good a u f₁ → good' a u f₁) : Ends f d good' r := by
  cases h with
  | ok hp h => exact .ok hp (hg _ _ _ hp h)
  | complaint hp => exact .complaint hp
  | fault hp ha => exact .fault hp ha

theorem Ends.bind {x : Rule α} {k : α → Rule β} {good : α → List Token → Feed → Prop}
    {good' : β → List Token → Feed → Prop} (hx : Ends f d good (x ⟨f, d⟩))
    (hk : ∀ a u f₁, f.Passes u f₁ → good a u f₁ →
      Ends f₁ d (fun b v f₂ => good' b (u ++ v) f₂) (k a ⟨f₁, d⟩)) :
    Ends f d good' ((x >>= k) ⟨f, d⟩) := by
  generalize hr : x ⟨f, d⟩ = r at hx
  cases hx with
  | ok hp h =>
    rw [bind_ok hr]
    generalize k _ _ = r, hk _ _ _ hp h = hk
    cases hk with
    | ok hp' h' => exact .ok (hp.append hp') h'
    | complaint hp' => exact .complaint (hp.append hp')
    | fault hp' ha => exact .fault (hp.append hp') ha
  | complaint hp => rw [bind_error hr]; exact .complaint hp
  | fault hp ha => rw [bind_error hr]; exact .fault hp ha

theorem ends_pure {good : α → List Token → Feed → Prop} {a : α} (h : good a [] f) :
    Ends f d good ((pure a : Rule α) ⟨f, d⟩) := .ok .here h

theorem ends_fail {good : α → List Token → Feed → Prop} (c : Complaint) :
    Ends f d good ((fail c : Rule α) ⟨f, d⟩) := .complaint .here

theorem ends_fail_bind {k : α → Rule β} {good : β → List Token → Feed → Prop} {c : Complaint} :
    Ends f d good ((fail c >>= k) ⟨f, d⟩) := .complaint .here

theorem ends_advance (hk : f.current.kind ≠ .endOfInput) :
    Ends f d (fun _ u f₁ => u = [f.current] ∧ f₁.size < f.size) (advance ⟨f, d⟩) := by
  cases ha : f.advance with
  | ok _ f₁ => rw [advance_ok ha]; exact .ok (.one hk ha) ⟨rfl, Feed.size_lt_of_advance hk ha⟩
  | error e f₁ => rw [advance_error ha]; exact .fault .here ha

theorem ends_advance_bind {k : Unit → Rule β} {good : β → List Token → Feed → Prop}
    (hk : f.current.kind ≠ .endOfInput)
    (h : ∀ f₁, f.advance = .ok () f₁ →
      Ends f₁ d (fun b v f₂ => good b (f.current :: v) f₂) (k () ⟨f₁, d⟩)) :
    Ends f d good ((advance >>= k) ⟨f, d⟩) := by
  cases ha : f.advance with
  | ok _ f₁ =>
    rw [advance_bind ha]
    generalize hr : k () ⟨f₁, d⟩ = r
    have h := h f₁ ha
    rw [hr] at h
    cases h with
    | ok hp h => exact .ok (.token hk ha hp) h
    | complaint hp => exact .complaint (.token hk ha hp)
    | fault hp hf => exact .fault (.token hk ha hp) hf
  | error e f₁ => rw [bind_error (advance_error ha)]; exact .fault .here ha

theorem ends_nested {x : Rule α} {good : α → List Token → Feed → Prop}
    (h : Ends f (d + 1) good (x ⟨f, d + 1⟩)) : Ends f d good (nested x ⟨f, d⟩) := by
  simp only [nested]
  generalize x ⟨f, d + 1⟩ = r at h
  cases h with
  | ok hp h => exact .ok hp h
  | complaint hp => exact .complaint hp
  | fault hp ha => exact .fault hp ha

end Ends

section Operands

variable {e : Rule Node} {f f₁ f₂ f₃ f₄ : Feed} {d : Nat}

theorem number_ok {v : Double} (hp : f.current.payload = .number v)
    (ha : f.advance = .ok () f₁) :
    number ⟨f, d⟩ = .ok (.number v f.current.start) ⟨f₁, d⟩ := by
  simp only [number, current_bind, hp, advance_bind ha]
  rfl

theorem number_ok_of_text {s : String} (hp : f.current.payload = .text s)
    (ha : f.advance = .ok () f₁) :
    number ⟨f, d⟩ = .ok (.textual s f.current.start) ⟨f₁, d⟩ := by
  simp only [number, current_bind, hp, advance_bind ha]
  rfl

theorem expect_ok {s : String} {c : Complaint} (hc : f.current.isChar s = true)
    (ha : f.advance = .ok () f₁) : expect s c ⟨f, d⟩ = .ok () ⟨f₁, d⟩ := by
  simp only [expect, current_bind, hc, if_true, advance_ok ha]

theorem parenthesized_ok {n : Node} (ha : f.advance = .ok () f₁)
    (he : e ⟨f₁, d⟩ = .ok n ⟨f₂, d⟩) (hc : f₂.current.isChar ")" = true)
    (ha' : f₂.advance = .ok () f₃) : parenthesized e ⟨f, d⟩ = .ok n ⟨f₃, d⟩ := by
  simp only [parenthesized, advance_bind ha, bind_ok he, bind_ok (expect_ok hc ha')]
  rfl

theorem identifier_variable (ha : f.advance = .ok () f₁)
    (hc : f₁.current.isChar "(" = false) :
    identifier e ⟨f, d⟩ = .ok (.var f.current.text f.current.start) ⟨f₁, d⟩ := by
  simp only [identifier, take, bind_assoc, pure_bind, current_bind, advance_bind ha, hc]
  rfl

theorem identifier_call {args : List Node} (ha : f.advance = .ok () f₁)
    (hc : f₁.current.isChar "(" = true) (ha' : f₁.advance = .ok () f₂)
    (hr : arguments e ⟨f₂, d⟩ = .ok args ⟨f₃, d⟩) (hl : f₃.advance = .ok () f₄) :
    identifier e ⟨f, d⟩ = .ok (.call f.current.text args f.current.start) ⟨f₄, d⟩ := by
  simp only [identifier, take, bind_assoc, pure_bind, current_bind, advance_bind ha, hc,
    if_true, advance_bind ha', bind_ok hr, advance_bind hl]
  rfl

theorem primary_of_number (hk : f.current.kind = .number) :
    primary e ⟨f, d⟩ = number ⟨f, d⟩ := by
  simp only [primary, current_bind, hk]

theorem primary_of_identifier (hk : f.current.kind = .identifier) :
    primary e ⟨f, d⟩ = identifier e ⟨f, d⟩ := by
  simp only [primary, current_bind, hk]

theorem primary_of_opening (hc : f.current.isChar "(" = true) :
    primary e ⟨f, d⟩ = parenthesized e ⟨f, d⟩ := by
  simp only [primary, current_bind, Token.kind_of_isChar hc, hc, if_true]

theorem primary_of_other (hi : f.current.kind ≠ .identifier) (hn : f.current.kind ≠ .number)
    (hc : f.current.isChar "(" = false) :
    primary e ⟨f, d⟩ = fail .noExpression ⟨f, d⟩ := by
  simp only [primary, current_bind, hc, Bool.false_eq_true, if_false]

def argumentsAfter (expression : Rule Node) (n : Nat) : Rule (List Node) := do
  let t ← current
  if t.isChar ")" then return []
  else if t.isChar "," then
    advance
    argumentsWithin expression n
  else fail .unclosedArguments

theorem argumentsWithin_succ (n : Nat) :
    argumentsWithin e (n + 1) = (do
      let arg ← e
      let args ← argumentsAfter e n
      return arg :: args) := by
  simp only [argumentsWithin, argumentsAfter, bind_assoc]
  congr; funext arg; congr; funext t
  split
  · rfl
  · split
    · simp only [bind_assoc]
    · rfl

theorem argumentsAfter_closing {n : Nat} (hc : f.current.isChar ")" = true) :
    argumentsAfter e n ⟨f, d⟩ = .ok [] ⟨f, d⟩ := by
  simp only [argumentsAfter, current_bind, hc, if_true]
  rfl

theorem argumentsAfter_comma {n : Nat} (hc : f.current.isChar "," = true)
    (ha : f.advance = .ok () f₁) :
    argumentsAfter e n ⟨f, d⟩ = argumentsWithin e n ⟨f₁, d⟩ := by
  have hn := Token.isChar_eq_false hc (by decide : "," ≠ ")")
  simp only [argumentsAfter, current_bind, hn, hc, Bool.false_eq_true, if_false, if_true,
    advance_bind ha]

theorem arguments_none (hc : f.current.isChar ")" = true) :
    arguments e ⟨f, d⟩ = .ok [] ⟨f, d⟩ := by
  simp only [arguments, current_bind, hc, if_true]
  rfl

theorem arguments_some (hc : f.current.isChar ")" = false) :
    arguments e ⟨f, d⟩ = argumentsWithin e (f.size + 1) ⟨f, d⟩ := by
  simp only [arguments, current_bind, hc, Bool.false_eq_true, if_false, turns_bind]

theorem argumentsWithin_ok {n : Nat} {arg : Node} {args : List Node}
    (he : e ⟨f, d⟩ = .ok arg ⟨f₁, d⟩) (hr : argumentsAfter e n ⟨f₁, d⟩ = .ok args ⟨f₂, d⟩) :
    argumentsWithin e (n + 1) ⟨f, d⟩ = .ok (arg :: args) ⟨f₂, d⟩ := by
  rw [argumentsWithin_succ, bind_ok he, bind_ok hr]
  rfl

theorem nested_ok {x : Rule α} {a : α} (h : x ⟨f, d + 1⟩ = .ok a ⟨f₁, d + 1⟩) :
    nested x ⟨f, d⟩ = .ok a ⟨f₁, d⟩ := by
  simp only [nested, h, Nat.add_sub_cancel]

end Operands

section Prototypes

variable {f f₁ f₂ f₃ : Feed} {d : Nat}

theorem parametersWithin_none (n : Nat) (ha : f.advance = .ok () f₁)
    (hk : f₁.current.kind ≠ .identifier) :
    parametersWithin (n + 1) ⟨f, d⟩ = .ok [] ⟨f₁, d⟩ := by
  simp only [parametersWithin, advance_bind ha, current_bind, hk, if_false]
  rfl

theorem parametersWithin_some {n : Nat} {params : List String} (ha : f.advance = .ok () f₁)
    (hk : f₁.current.kind = .identifier)
    (hr : parametersWithin n ⟨f₁, d⟩ = .ok params ⟨f₂, d⟩) :
    parametersWithin (n + 1) ⟨f, d⟩ = .ok (f₁.current.text :: params) ⟨f₂, d⟩ := by
  simp only [parametersWithin, advance_bind ha, current_bind, hk, if_true, bind_ok hr]
  rfl

theorem parametersWithin_ok {ps : List Token} (hps : ∀ t ∈ ps, t.kind = .identifier) {n : Nat}
    (hn : f.size < n) (hp : f.Passes (f.current :: ps) f₁) (hk : f₁.current.kind ≠ .identifier) :
    parametersWithin n ⟨f, d⟩ = .ok (ps.map (·.text)) ⟨f₁, d⟩ := by
  induction ps generalizing f n with
  | nil =>
    obtain ⟨-, -, f₂, ha, hp₂⟩ := hp.head
    cases hp₂
    obtain ⟨n, rfl⟩ := Nat.exists_eq_add_one.2 (show 0 < n by omega)
    exact parametersWithin_none n ha hk
  | cons t ps ih =>
    obtain ⟨-, hne, f₂, ha, hp₂⟩ := hp.head
    obtain ⟨rfl, -⟩ := hp₂.head
    obtain ⟨n, rfl⟩ := Nat.exists_eq_add_one.2 (show 0 < n by omega)
    have hs := Feed.size_lt_of_advance hne ha
    have ht := ih (fun t ht => hps t (by simp [ht])) (n := n) (by omega) hp₂
    exact parametersWithin_some ha (hps _ (by simp)) ht

theorem prototype_ok {params : List String} (hk : f.current.kind = .identifier)
    (ha : f.advance = .ok () f₁) (hc : f₁.current.isChar "(" = true)
    (hr : parametersWithin (f₁.size + 1) ⟨f₁, d⟩ = .ok params ⟨f₂, d⟩)
    (hl : f₂.current.isChar ")" = true) (ha' : f₂.advance = .ok () f₃) :
    prototype ⟨f, d⟩ = .ok (.prototype f.current.text params f.current.start) ⟨f₃, d⟩ := by
  simp only [prototype, current_bind, hk, ne_eq, not_true_eq_false, if_false, advance_bind ha,
    hc, Bool.not_true, Bool.false_eq_true, turns_bind, bind_ok hr, bind_ok (expect_ok hl ha')]
  rfl

end Prototypes

end Kaleidoscope.Rule

namespace Kaleidoscope.Grammar

open Rule

variable {g : Grammar} {f f₁ f₂ f₃ : Feed} {d : Nat}

theorem level_pos_or (g : Grammar) (t : Token) : 0 < g.level t ∨ g.level t = -1 := by
  unfold level
  split
  · split
    · exact Precedence.level_pos_or ..
    · exact .inr rfl
  · exact .inr rfl

theorem kind_of_level_pos {t : Token} (h : 0 < g.level t) : t.kind = .character := by
  unfold level at h
  split at h
  · assumption
  · omega

theorem kind_ne_of_level_pos {t : Token} (h : 0 < g.level t) : t.kind ≠ .endOfInput := by
  rw [kind_of_level_pos h]
  decide

theorem linksWithin_stop {operand : Rule Node} {least : Int} {n : Nat} {p : Parser}
    (h : g.level p.feed.current < least) : g.linksWithin operand least (n + 1) p = .ok [] p := by
  simp only [linksWithin, current_bind, h, if_true]
  rfl

theorem linksWithin_link {operand : Rule Node} {least : Int} {n : Nat}
    (h : least ≤ g.level f.current) (ha : f.advance = .ok () f₁) :
    g.linksWithin operand least (n + 1) ⟨f, d⟩ = (do
      let right ← operand
      let links ← g.linksWithin operand least n
      return (⟨f.current, g.level f.current, right⟩ : Link) :: links) ⟨f₁, d⟩ := by
  simp only [linksWithin, current_bind, Int.not_lt.2 h, if_false, advance_bind ha]

theorem linksWithin_ok {operand : Rule Node} {least : Int} {n : Nat} {right : Node}
    {links : List Link} {q : Parser} (h : least ≤ g.level f.current)
    (ha : f.advance = .ok () f₁) (ho : operand ⟨f₁, d⟩ = .ok right ⟨f₂, d⟩)
    (hl : g.linksWithin operand least n ⟨f₂, d⟩ = .ok links q) :
    g.linksWithin operand least (n + 1) ⟨f, d⟩ =
      .ok (⟨f.current, g.level f.current, right⟩ :: links) q := by
  rw [linksWithin_link h ha, bind_ok ho, bind_ok hl]
  rfl

theorem expressionWithin_succ (n : Nat) :
    g.expressionWithin (n + 1) = nested (do
      let left ← primary (g.expressionWithin n)
      g.operators (primary (g.expressionWithin n)) 0 left) := rfl

theorem operators_eq {operand : Rule Node} {least : Int} {left : Node} {p : Parser} :
    g.operators operand least left p = (do
      let links ← g.linksWithin operand least (p.feed.size + 1)
      return Chain.tree left links) p := rfl

theorem operators_ok {operand : Rule Node} {least : Int} {left : Node} {links : List Link}
    {p q : Parser} (h : g.linksWithin operand least (p.feed.size + 1) p = .ok links q) :
    g.operators operand least left p = .ok (Chain.tree left links) q := by
  rw [operators_eq, bind_ok h]
  rfl

theorem definition_ok {proto body : Node} (hk : f.current.kind = .define)
    (ha : f.advance = .ok () f₁) (hp : prototype ⟨f₁, d⟩ = .ok proto ⟨f₂, d⟩)
    (hb : g.expression ⟨f₂, d⟩ = .ok body ⟨f₃, d⟩) :
    g.definition ⟨f, d⟩ = .ok (.function proto body f.current.start) ⟨f₃, d⟩ := by
  simp only [definition, current_bind, hk, ne_eq, not_true_eq_false, if_false,
    advance_bind ha, bind_ok hp, bind_ok hb]
  rfl

theorem external_ok {proto : Node} (hk : f.current.kind = .external)
    (ha : f.advance = .ok () f₁) (hp : prototype ⟨f₁, d⟩ = .ok proto ⟨f₂, d⟩) :
    external ⟨f, d⟩ = .ok proto ⟨f₂, d⟩ := by
  simp only [external, current_bind, hk, ne_eq, not_true_eq_false, if_false, advance_bind ha]
  exact hp

theorem standalone_ok {body : Node} (hb : g.expression ⟨f, d⟩ = .ok body ⟨f₁, d⟩) :
    g.standalone ⟨f, d⟩ =
      .ok (.function (.prototype Node.anonymousName [] f.current.start) body f.current.start)
        ⟨f₁, d⟩ := by
  simp only [standalone, current_bind, bind_ok hb]
  rfl

end Kaleidoscope.Grammar
