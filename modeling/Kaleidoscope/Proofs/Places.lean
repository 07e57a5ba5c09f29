import Kaleidoscope.Proofs.Decomposition

/-! Places in a text. Tokens start one behind the other, and the place where a token starts tells
where it ends. -/

set_option autoImplicit false

namespace Kaleidoscope

def Position.Precedes (p q : Position) : Prop :=
  p.line < q.line ∨ p.line = q.line ∧ p.column < q.column

namespace Position

theorem Precedes.trans {p q r : Position} (h : p.Precedes q) (h' : q.Precedes r) :
    p.Precedes r := by
  simp only [Precedes] at *
  omega

theorem precedes_after (p : Position) (c : Option Char) : p.Precedes (p.after c) := by
  unfold after
  split
  · exact .inl (Int.lt_succ p.line)
  · exact .inr ⟨rfl, Int.lt_succ p.column⟩

theorem behind_precedes (before : List Char) (c : Char) (cs : List Char) :
    (behind before).Precedes (behind (before ++ c :: cs)) := by
  induction cs generalizing before c with
  | nil =>
    rw [behind_concat]
    exact precedes_after _ _
  | cons c' cs ih =>
    have hone : (behind before).Precedes (behind (before ++ [c])) := by
      rw [behind_concat]
      exact precedes_after _ _
    have hrest := ih (before ++ [c]) c'
    rw [List.append_assoc, List.singleton_append] at hrest
    exact hone.trans hrest

end Position

theorem Decomposes.starts_behind {before cs : List Char} {w : List Token}
    (h : Decomposes before cs w) : ∀ t ∈ w, ∃ passed, t.start = .behind (before ++ passed) := by
  induction h with
  | @finished before gap _ =>
    intro t ht
    rw [List.mem_singleton.1 ht]
    exact ⟨gap, rfl⟩
  | @token before gap l rest t w _ _ hs _ ih =>
    refine List.forall_mem_cons.2 ⟨⟨gap, hs⟩, fun t ht => ?_⟩
    obtain ⟨passed, hp⟩ := ih t ht
    exact ⟨gap ++ (l ++ passed), by rw [hp]; simp⟩

theorem Decomposes.ordered {before cs : List Char} {w : List Token}
    (h : Decomposes before cs w) : (w.map (·.start)).Pairwise Position.Precedes := by
  induction h with
  | finished => simp
  | @token before gap l rest t w _ ht hs hw ih =>
    refine List.pairwise_cons.2 ⟨fun p hp => ?_, ih⟩
    obtain ⟨t', ht', rfl⟩ := List.mem_map.1 hp
    obtain ⟨passed, hpassed⟩ := hw.starts_behind t' ht'
    obtain ⟨c, l, rfl⟩ := List.exists_cons_of_ne_nil ht.isLexeme.ne_nil
    have hlt := Position.behind_precedes (before ++ gap) c (l ++ passed)
    rw [hpassed]
    simpa [hs] using hlt

/-- The number of characters of the text up to the end of a token. -/
inductive Token.EndsAt (text : List Char) : Token → Nat → Prop where
  | lexeme {before l rest : List Char} {t : Token} : text = before ++ (l ++ rest) →
      Reads rest l t → t.start = .behind before → EndsAt text t (before ++ l).length
  | finish : EndsAt text (.endOfInput (.behind text)) text.length

theorem Position.not_precedes_self (p : Position) : ¬ p.Precedes p := by
  simp [Precedes]

theorem Position.eq_of_behind_eq {text before before' : List Char} (h : before <+: text)
    (h' : before' <+: text) (he : behind before = behind before') : before = before' := by
  have hle : ∀ {xs ys : List Char}, xs <+: ys → behind xs = behind ys → xs = ys := by
    intro xs ys hp hb
    obtain ⟨zs, rfl⟩ := hp
    cases zs with
    | nil => rw [List.append_nil]
    | cons c zs =>
      have hlt := behind_precedes xs c zs
      rw [← hb] at hlt
      exact absurd hlt (not_precedes_self _)
  obtain hp | hp := List.prefix_or_prefix_of_prefix h h'
  · exact hle hp he
  · exact (hle hp he.symm).symm

theorem Reads.text_eq {tail l : List Char} {t : Token} (h : Reads tail l t) :
    t.text.toList = l := by
  cases h <;> exact String.toList_ofList

theorem Token.EndsAt.unique {text : List Char} {t : Token} {k k' : Nat} (h : t.EndsAt text k)
    (h' : t.EndsAt text k') : k = k' := by
  cases h with
  | @lexeme before l rest _ ht hr hs =>
    generalize hu : t = u at h'
    cases h' with
    | @lexeme before' l' rest' _ ht' hr' hs' =>
      subst hu
      have hb : before = before' := Position.eq_of_behind_eq ⟨_, ht.symm⟩ ⟨_, ht'.symm⟩
        (hs.symm.trans hs')
      rw [hb, ← hr.text_eq, hr'.text_eq]
    | finish =>
      subst hu
      exact absurd rfl hr.kind_ne
  | finish =>
    generalize hu : Token.endOfInput (.behind text) = u at h'
    cases h' with
    | lexeme _ hr _ =>
      subst hu
      exact absurd rfl hr.kind_ne
    | finish => rfl

end Kaleidoscope
