import Kaleidoscope.Proofs.Derivation
import Kaleidoscope.Proofs.Grouping

/-! Chains of operators as they are read. An expression is an operand and the operators behind it,
and its operands are read by the same rule for expressions, one level deeper. Reading a chain
first and grouping it then comes to the same as climbing from level to level while it is read. -/

set_option autoImplicit false

namespace Kaleidoscope.Rule

variable {α β : Type}

/-- A rule that does not leave the depth, and two rules that do the same there. -/
def StaysAt (d : Nat) (x : Rule α) : Prop := ∀ f a q, x ⟨f, d⟩ = .ok a q → q.depth = d

def AgreeAt (d : Nat) (x x' : Rule α) : Prop := ∀ f, x ⟨f, d⟩ = x' ⟨f, d⟩

variable {d : Nat}

theorem AgreeAt.bind {x x' : Rule α} {k k' : α → Rule β} (hx : AgreeAt d x x')
    (hs : StaysAt d x') (hk : ∀ a, AgreeAt d (k a) (k' a)) :
    AgreeAt d (x >>= k) (x' >>= k') := by
  intro f
  cases hx' : x' ⟨f, d⟩ with
  | ok a q =>
    obtain ⟨f₁, d₁⟩ := q
    obtain rfl : d₁ = d := hs f a _ hx'
    rw [bind_ok hx', bind_ok ((hx f).trans hx'), hk a f₁]
  | error e q => rw [bind_error hx', bind_error ((hx f).trans hx')]

theorem AgreeAt.bind_left {x x' : Rule α} (hx : AgreeAt d x x') (k : α → Rule β) :
    AgreeAt d (x >>= k) (x' >>= k) := fun f => bind_of_eq (hx f)

theorem agreeAt_refl (x : Rule α) : AgreeAt d x x := fun _ => rfl

theorem AgreeAt.current_bind {k k' : Token → Rule β} (h : ∀ t, AgreeAt d (k t) (k' t)) :
    AgreeAt d (current >>= k) (current >>= k') := fun f => h f.current f

theorem AgreeAt.turns_bind {k k' : Nat → Rule β} (h : ∀ n, AgreeAt d (k n) (k' n)) :
    AgreeAt d (turns >>= k) (turns >>= k') := fun f => h (f.size + 1) f

theorem staysAt_advance : StaysAt d advance := by
  intro f a q h
  cases ha : f.advance with
  | ok _ f₁ => rw [advance_ok ha] at h; cases h; rfl
  | error e f₁ => rw [advance_error ha] at h; cases h

theorem AgreeAt.advance_bind {k k' : Unit → Rule β} (h : ∀ u, AgreeAt d (k u) (k' u)) :
    AgreeAt d (advance >>= k) (advance >>= k') := (agreeAt_refl _).bind staysAt_advance h

section Congruence

variable {e e' : Rule Node}

theorem AgreeAt.parenthesized (he : AgreeAt d e e') :
    AgreeAt d (parenthesized e) (parenthesized e') := .advance_bind fun _ => he.bind_left _

theorem AgreeAt.argumentsWithin (he : AgreeAt d e e') (hs : StaysAt d e') (n : Nat) :
    AgreeAt d (argumentsWithin e n) (argumentsWithin e' n) := by
  induction n with
  | zero => exact agreeAt_refl _
  | succ n ih =>
    refine he.bind hs fun arg => .current_bind fun t => ?_
    split
    · exact agreeAt_refl _
    · split
      · exact .advance_bind fun _ => ih.bind_left _
      · exact agreeAt_refl _

theorem AgreeAt.arguments (he : AgreeAt d e e') (hs : StaysAt d e') :
    AgreeAt d (arguments e) (arguments e') := by
  refine .current_bind fun t => ?_
  split
  · exact agreeAt_refl _
  · exact .turns_bind fun n => he.argumentsWithin hs n

theorem AgreeAt.primary (he : AgreeAt d e e') (hs : StaysAt d e') :
    AgreeAt d (primary e) (primary e') := by
  intro f
  by_cases hi : f.current.kind = .identifier
  · rw [primary_of_identifier hi, primary_of_identifier hi]
    simp only [identifier, take, bind_assoc, pure_bind]
    refine AgreeAt.current_bind (fun t => .advance_bind fun _ => .current_bind fun t' => ?_) f
    split
    · exact .advance_bind fun _ => (he.arguments hs).bind_left _
    · exact agreeAt_refl _
  by_cases hn : f.current.kind = .number
  · rw [primary_of_number hn, primary_of_number hn]
  cases hc : f.current.isChar "(" with
  | true => rw [primary_of_opening hc, primary_of_opening hc, he.parenthesized f]
  | false => rw [primary_of_other hi hn hc, primary_of_other hi hn hc]

end Congruence

end Kaleidoscope.Rule

namespace Kaleidoscope.Grammar

open Rule

variable {g : Grammar} {d : Nat}

theorem AgreeAt.linksWithin {o o' : Rule Node} (ho : AgreeAt d o o') (hs : StaysAt d o')
    (least : Int) (n : Nat) :
    AgreeAt d (g.linksWithin o least n) (g.linksWithin o' least n) := by
  induction n with
  | zero => exact agreeAt_refl _
  | succ n ih =>
    refine .current_bind fun t => ?_
    simp only
    split
    · exact agreeAt_refl _
    · exact .advance_bind fun _ => ho.bind hs fun _ => ih.bind_left _

theorem AgreeAt.operators {o o' : Rule Node} (ho : AgreeAt d o o') (hs : StaysAt d o')
    (least : Int) (left : Node) :
    AgreeAt d (g.operators o least left) (g.operators o' least left) :=
  .turns_bind fun n => (AgreeAt.linksWithin ho hs least n).bind_left _

theorem staysAt_of_ends {α : Type} {x : Rule α} {good : α → List Token → Feed → Prop}
    (h : ∀ f, Ends f d good (x ⟨f, d⟩)) : StaysAt d x := by
  intro f a q hx
  have he := h f
  rw [hx] at he
  cases he
  rfl

theorem staysAt_expression : StaysAt d g.expression := staysAt_of_ends fun _ => ends_expression

theorem staysAt_primary : StaysAt d (primary g.expression) :=
  staysAt_of_ends fun _ => ends_primary fun _ => ends_expression

theorem agreeAt_expressionWithin {n : Nat} (h : g.room d = n + 1) :
    AgreeAt (d + 1) (g.expressionWithin n) g.expression := by
  intro f
  have hn : g.room (d + 1) = n := by
    simp only [room] at h ⊢
    omega
  simp only [expression, hn]

theorem expression_eq (f : Feed) :
    g.expression ⟨f, d⟩ =
      if g.maxDepth ≤ d then fail .tooDeep ⟨f, d⟩
      else nested (do
        let left ← primary g.expression
        g.operators (primary g.expression) 0 left) ⟨f, d⟩ := by
  split
  · next h =>
    have h0 : g.room d = 0 := by simp only [room]; omega
    simp only [expression, h0]
    rfl
  · next h =>
    obtain ⟨n, hn⟩ : ∃ n, g.room d = n + 1 := ⟨g.room d - 1, by simp only [room]; omega⟩
    have hp : AgreeAt (d + 1) (primary (g.expressionWithin n)) (primary g.expression) :=
      (agreeAt_expressionWithin hn).primary staysAt_expression
    have hb : AgreeAt (d + 1)
        (primary (g.expressionWithin n) >>= g.operators (primary (g.expressionWithin n)) 0)
        (primary g.expression >>= g.operators (primary g.expression) 0) :=
      hp.bind staysAt_primary fun left => AgreeAt.operators hp staysAt_primary 0 left
    simp only [expression, hn]
    rw [expressionWithin_succ]
    simp only [nested]
    rw [hb f]

end Kaleidoscope.Grammar
