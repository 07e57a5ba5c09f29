import Kaleidoscope.Grammar

/-! What a feed has to give. `Passes` follows a feed over the tokens that are passed, up to where
they have been passed; `Delivers` follows it to the end of the input, which is answered for ever. -/

set_option autoImplicit false

namespace Kaleidoscope

section Steps

variable {ε σ α β : Type} {x : EStateM ε σ α} {k : α → EStateM ε σ β} {s s' : σ}

theorem bind_ok {a : α} (h : x s = .ok a s') : (x >>= k) s = k a s' := by
  simp only [bind, EStateM.bind, h]

theorem bind_error {e : ε} (h : x s = .error e s') : (x >>= k) s = .error e s' := by
  simp only [bind, EStateM.bind, h]

end Steps

theorem Token.kind_of_isChar {t : Token} {s : String} (h : t.isChar s = true) :
    t.kind = .character := by
  simp only [isChar, Bool.and_eq_true, beq_iff_eq] at h
  exact h.1

theorem Token.kind_ne_of_isChar {t : Token} {s : String} (h : t.isChar s = true) :
    t.kind ≠ .endOfInput := by
  rw [kind_of_isChar h]
  decide

theorem Token.payload_of_isChar {t : Token} {s : String} (h : t.isChar s = true) :
    t.payload = .text s := by
  simp only [isChar, Bool.and_eq_true, beq_iff_eq] at h
  exact h.2

theorem Token.isChar_eq_false {t : Token} {s s' : String} (h : t.isChar s = true)
    (hs : s ≠ s') : t.isChar s' = false := by
  simp [isChar, payload_of_isChar h, hs]

theorem Token.isChar_of_kind_ne {t : Token} {s : String} (h : t.kind ≠ .character) :
    t.isChar s = false := by
  simp [isChar, h]

namespace Feed

/-- The tokens between two places of a feed, the end of the input not among them. -/
inductive Passes : Feed → List Token → Feed → Prop where
  | here {f : Feed} : Passes f [] f
  | token {f f₁ f₂ : Feed} {u : List Token} : f.current.kind ≠ .endOfInput →
      f.advance = .ok () f₁ → Passes f₁ u f₂ → Passes f (f.current :: u) f₂

/-- The tokens from the current one on, up to the end of the input. -/
inductive Delivers : Feed → List Token → Prop where
  | finished {f : Feed} : f.upcoming = [] → f.current = .endOfInput f.finish.position →
      Delivers f [f.current]
  | token {f f₁ : Feed} {w : List Token} : f.current.kind ≠ .endOfInput →
      f.advance = .ok () f₁ → Delivers f₁ w → Delivers f (f.current :: w)

theorem Passes.one {f f₁ : Feed} (hk : f.current.kind ≠ .endOfInput)
    (ha : f.advance = .ok () f₁) : Passes f [f.current] f₁ := .token hk ha .here

theorem Passes.eq_of_nil {f f₁ : Feed} (h : Passes f [] f₁) : f₁ = f := by cases h; rfl

theorem Passes.head {f f₂ : Feed} {t : Token} {u : List Token} (h : Passes f (t :: u) f₂) :
    f.current = t ∧ t.kind ≠ .endOfInput ∧ ∃ f₁, f.advance = .ok () f₁ ∧ Passes f₁ u f₂ := by
  cases h with
  | token hk ha ht => exact ⟨rfl, hk, _, ha, ht⟩

theorem Passes.append {f f₁ f₂ : Feed} {u v : List Token} (h : Passes f u f₁)
    (h' : Passes f₁ v f₂) : Passes f (u ++ v) f₂ := by
  induction h with
  | here => exact h'
  | token hk ha _ ih => exact .token hk ha (ih h')

theorem Passes.split {f f₂ : Feed} {u v : List Token} (h : Passes f (u ++ v) f₂) :
    ∃ f₁, Passes f u f₁ ∧ Passes f₁ v f₂ := by
  induction u generalizing f with
  | nil => exact ⟨f, .here, h⟩
  | cons t u ih =>
    obtain ⟨rfl, hk, f₁, ha, ht⟩ := h.head
    obtain ⟨f₃, hu, hv⟩ := ih ht
    exact ⟨f₃, .token hk ha hu, hv⟩

theorem Passes.kind_ne {f f₁ : Feed} {u : List Token} (h : Passes f u f₁) :
    ∀ t ∈ u, t.kind ≠ .endOfInput := by
  induction h with
  | here => simp
  | token hk _ _ ih => exact List.forall_mem_cons.2 ⟨hk, ih⟩

theorem size_le_of_advance {f f₁ : Feed} (h : f.advance = .ok () f₁) : f₁.size ≤ f.size := by
  unfold advance at h
  split at h
  · cases h; simp [size, Token.endOfInput]
  · next hu => cases h; simp only [size, hu, List.length_cons]; split <;> split <;> omega
  · cases h

theorem size_lt_of_advance {f f₁ : Feed} (hk : f.current.kind ≠ .endOfInput)
    (h : f.advance = .ok () f₁) : f₁.size < f.size := by
  unfold advance at h
  split at h
  · cases h; simp [size, Token.endOfInput, hk]
  · next hu => cases h; simp only [size, hu, List.length_cons, hk, if_false]; split <;> omega
  · cases h

theorem Passes.size_le {f f₁ : Feed} {u : List Token} (h : Passes f u f₁) :
    f₁.size + u.length ≤ f.size := by
  induction h with
  | here => simp
  | token hk ha _ ih =>
    have hs := size_lt_of_advance hk ha
    simp only [List.length_cons]
    omega

theorem Delivers.current {f : Feed} {t : Token} {w : List Token} (h : Delivers f (t :: w)) :
    f.current = t := by cases h <;> rfl

theorem Delivers.ne_nil {f : Feed} {w : List Token} (h : Delivers f w) : w ≠ [] := by
  cases h <;> simp

theorem advance_of_upcoming_nil {f : Feed} (h : f.upcoming = []) :
    f.advance =
      .ok () ⟨.endOfInput f.finish.position, f.finish.taken, f.upcoming, f.finish⟩ := by
  simp [advance, h]

theorem Delivers.advance_ok {f : Feed} {w : List Token} (h : Delivers f w) :
    ∃ f₁, f.advance = .ok () f₁ := by
  cases h with
  | finished hu _ => exact ⟨_, advance_of_upcoming_nil hu⟩
  | token _ ha _ => exact ⟨_, ha⟩

theorem Delivers.of_finished {f f₁ : Feed} {w : List Token} (h : Delivers f w)
    (hk : f.current.kind = .endOfInput) (ha : f.advance = .ok () f₁) :
    w = [f.current] ∧ Delivers f₁ w ∧ f₁.current = f.current := by
  cases h with
  | finished hu hc =>
    cases (advance_of_upcoming_nil hu).symm.trans ha
    rw [hc]
    exact ⟨rfl, .finished hu rfl, rfl⟩
  | token hk' => exact absurd hk hk'

theorem Delivers.tail {f f₁ : Feed} {w : List Token} (h : Delivers f w)
    (hk : f.current.kind ≠ .endOfInput) (ha : f.advance = .ok () f₁) :
    ∃ w₁, w = f.current :: w₁ ∧ Delivers f₁ w₁ := by
  cases h with
  | finished _ hc => exact absurd (congrArg Token.kind hc) hk
  | token _ ha' h₁ =>
    cases ha.symm.trans ha'
    exact ⟨_, rfl, h₁⟩

theorem Delivers.after {f f₁ : Feed} {w u : List Token} (h : Delivers f w)
    (hp : Passes f u f₁) : ∃ v, w = u ++ v ∧ Delivers f₁ v := by
  induction hp generalizing w with
  | here => exact ⟨w, rfl, h⟩
  | token hk ha _ ih =>
    obtain ⟨w₁, rfl, h₁⟩ := h.tail hk ha
    obtain ⟨v, rfl, hv⟩ := ih h₁
    exact ⟨v, rfl, hv⟩

theorem Delivers.unique {f : Feed} {v w : List Token} (h : Delivers f v) (h' : Delivers f w) :
    v = w := by
  induction h generalizing w with
  | finished hu hc =>
    obtain ⟨hw, -⟩ := h'.of_finished (by rw [hc]; rfl) (advance_of_upcoming_nil hu)
    exact hw.symm
  | token hk ha _ ih =>
    obtain ⟨w₁, rfl, hw₁⟩ := h'.tail hk ha
    rw [ih hw₁]

theorem Delivers.eq_of_passes {f f₁ : Feed} {w u₁ u₂ : List Token} (h : Delivers f w)
    (h₁ : Passes f u₁ f₁) (h₂ : Passes f u₂ f₁) : u₁ = u₂ := by
  obtain ⟨v₁, rfl, hv₁⟩ := h.after h₁
  obtain ⟨v₂, he, hv₂⟩ := h.after h₂
  rw [hv₁.unique hv₂] at he
  exact List.append_cancel_right he

theorem Delivers.passes {f : Feed} {u v : List Token} (h : Delivers f (u ++ v)) (hv : v ≠ []) :
    ∃ f₁, Passes f u f₁ ∧ Delivers f₁ v := by
  induction u generalizing f with
  | nil => exact ⟨f, .here, h⟩
  | cons t u ih =>
    cases hw : (t :: u) ++ v with
    | nil => simp at hw
    | cons t' w =>
      rw [hw] at h
      cases h with
      | finished => simp_all
      | token hk ha h₁ =>
        simp only [List.cons_append, List.cons.injEq] at hw
        obtain ⟨rfl, rfl⟩ := hw
        obtain ⟨f₁, hu, hd⟩ := ih h₁
        exact ⟨f₁, .token hk ha hu, hd⟩

theorem Delivers.length_le {f : Feed} {w : List Token} (h : f.Delivers w) :
    w.length ≤ f.size + 1 := by
  induction h with
  | finished => simp
  | token hk ha _ ih =>
    have hs := size_lt_of_advance hk ha
    simp only [List.length_cons]
    omega

theorem Delivers.eq_of_finished {f : Feed} {w : List Token} (h : f.Delivers w)
    (hk : f.current.kind = .endOfInput) : ∃ place, w = [.endOfInput place] := by
  cases h with
  | finished _ hc => exact ⟨_, by rw [hc]⟩
  | token hk' => exact absurd hk hk'

end Feed

end Kaleidoscope
