import Mathlib.Data.List.Forall2
import Kaleidoscope.Proofs.Derivation
import Kaleidoscope.Proofs.Scanning

/-! Two feeds side by side. They deliver tokens that differ in their places at most, until the
first comes to its end and the second to a token that no expression and no prototype goes on with.
Up to there no rule tells them apart: on both it comes to the same result, or complains of the
same. -/

set_option autoImplicit false

namespace Kaleidoscope

/-- Tokens that differ in their places at most, and stand for no number that differs from
itself. -/
structure Token.Like (t t' : Token) : Prop where
  unplaced : t.unplaced = t'.unplaced
  payload_ne : t.payload ≠ .number .nan

namespace Token.Like

variable {t t' : Token}

theorem kind_eq (h : t.Like t') : t.kind = t'.kind :=
  show t.unplaced.kind = t'.unplaced.kind from congrArg Token.kind h.unplaced

theorem payload_eq (h : t.Like t') : t.payload = t'.payload :=
  show t.unplaced.payload = t'.unplaced.payload from congrArg Token.payload h.unplaced

theorem text_eq (h : t.Like t') : t.text = t'.text :=
  show t.unplaced.text = t'.unplaced.text from congrArg Token.text h.unplaced

theorem isChar_eq (h : t.Like t') (s : String) : t.isChar s = t'.isChar s := by
  simp only [isChar, h.kind_eq, h.payload_eq]

theorem stage_eq (h : t.Like t') : t.stage = t'.stage := by
  simp only [stage, h.kind_eq, h.isChar_eq]

theorem level_eq (g : Grammar) (h : t.Like t') : g.level t = g.level t' := by
  simp only [Grammar.level, h.kind_eq, h.payload_eq]

end Token.Like

def IsMark (s : String) : Prop := s = "(" ∨ s = ")" ∨ s = ","

/-- A token that no expression and no prototype goes on with. -/
structure Grammar.Stops (g : Grammar) (t : Token) : Prop where
  level_eq : g.level t = -1
  kind_ne_identifier : t.kind ≠ .identifier
  kind_ne_number : t.kind ≠ .number
  isChar_eq : ∀ s, IsMark s → t.isChar s = false

theorem Grammar.stops_of_kind {g : Grammar} {t : Token} (hc : t.kind ≠ .character)
    (hi : t.kind ≠ .identifier) (hn : t.kind ≠ .number) : g.Stops t := by
  have hl : g.level t = -1 := by
    obtain hpos | hl := g.level_pos_or t
    · exact absurd (kind_of_level_pos hpos) hc
    · exact hl
  exact ⟨hl, hi, hn, fun _ _ => Token.isChar_of_kind_ne hc⟩

theorem Grammar.stops_endOfInput (g : Grammar) (place : Position) :
    g.Stops (.endOfInput place) :=
  stops_of_kind (by simp [Token.endOfInput]) (by simp [Token.endOfInput])
    (by simp [Token.endOfInput])

/-- The feeds deliver `n` alike tokens. Then the first is at its end, and the second goes on with
other tokens. -/
inductive Feed.Abreast (g : Grammar) (rest : List Token) : Nat → Feed → Feed → Prop where
  | parted {place : Position} {f f' : Feed} : f.Delivers [.endOfInput place] →
      f'.Delivers rest → g.Stops f'.current → Abreast g rest 0 f f'
  | token {n : Nat} {f f₁ f' f₁' : Feed} : f.current.Like f'.current →
      f.current.kind ≠ .endOfInput → f.advance = .ok () f₁ → f'.advance = .ok () f₁' →
      Abreast g rest n f₁ f₁' → Abreast g rest (n + 1) f f'

namespace Feed.Abreast

variable {g : Grammar} {rest : List Token} {n : Nat} {f f' : Feed}

theorem stops_or_like (h : f.Abreast g rest n f') :
    (g.Stops f.current ∧ g.Stops f'.current) ∨ f.current.Like f'.current := by
  cases h with
  | parted hd _ hs =>
    rw [hd.current]
    exact .inl ⟨g.stops_endOfInput _, hs⟩
  | token hl => exact .inr hl

theorem isChar_eq (h : f.Abreast g rest n f') {s : String} (hs : IsMark s) :
    f.current.isChar s = f'.current.isChar s := by
  obtain ⟨ht, ht'⟩ | hl := h.stops_or_like
  · rw [ht.isChar_eq s hs, ht'.isChar_eq s hs]
  · exact hl.isChar_eq s

theorem level_eq (h : f.Abreast g rest n f') : g.level f.current = g.level f'.current := by
  obtain ⟨ht, ht'⟩ | hl := h.stops_or_like
  · rw [ht.level_eq, ht'.level_eq]
  · exact hl.level_eq g

theorem identifier_iff (h : f.Abreast g rest n f') :
    f.current.kind = .identifier ↔ f'.current.kind = .identifier := by
  obtain ⟨ht, ht'⟩ | hl := h.stops_or_like
  · exact iff_of_false ht.kind_ne_identifier ht'.kind_ne_identifier
  · rw [hl.kind_eq]

theorem number_iff (h : f.Abreast g rest n f') :
    f.current.kind = .number ↔ f'.current.kind = .number := by
  obtain ⟨ht, ht'⟩ | hl := h.stops_or_like
  · exact iff_of_false ht.kind_ne_number ht'.kind_ne_number
  · rw [hl.kind_eq]

theorem advance (h : f.Abreast g rest n f') (hk : f.current.kind ≠ .endOfInput) :
    ∃ m f₁ f₁', n = m + 1 ∧ f.current.Like f'.current ∧ f.advance = .ok () f₁ ∧
      f'.advance = .ok () f₁' ∧ f₁.Abreast g rest m f₁' := by
  cases h with
  | parted hd =>
    rw [hd.current] at hk
    exact absurd rfl hk
  | token hl _ ha ha' h => exact ⟨_, _, _, rfl, hl, ha, ha', h⟩

theorem delivers (h : f.Abreast g rest n f') : ∃ w, f.Delivers w ∧ w.length = n + 1 := by
  induction h with
  | parted hd => exact ⟨_, hd, rfl⟩
  | token _ hk ha _ _ ih =>
    obtain ⟨w, hw, hn⟩ := ih
    exact ⟨_, .token hk ha hw, by rw [List.length_cons, hn]⟩

theorem le_size (h : f.Abreast g rest n f') : n ≤ f.size ∧ n ≤ f'.size := by
  induction h with
  | parted => simp
  | token hl hk ha ha' _ ih =>
    have hs := size_lt_of_advance hk ha
    have hs' := size_lt_of_advance (hl.kind_eq ▸ hk) ha'
    omega

end Feed.Abreast

theorem Node.sameAll_cons {a a' : Node} {as as' : List Node} (h : a.same a' = true)
    (hs : sameAll as as' = true) : sameAll (a :: as) (a' :: as') = true := by
  simp only [sameAll, h, hs, Bool.and_self]

theorem Node.same_function {proto proto' body body' : Node} {start start' : Position}
    (hp : proto.same proto' = true) (hb : body.same body' = true) :
    (function proto body start).same (.function proto' body' start') = true := by
  simp only [same, hp, hb, Bool.and_self]

namespace Rule

variable {α β : Type} {g : Grammar} {rest : List Token}

/-- A rule ends alike on two feeds: it has left at most `n` alike tokens on either, and comes to
results that go together, or has the same complaint about the current tokens. -/
inductive Alike (g : Grammar) (rest : List Token) (d n : Nat) (good : α → α → Feed → Prop) :
    EStateM.Result Stop Parser α → EStateM.Result Stop Parser α → Prop where
  | ok {m : Nat} {a a' : α} {f f' : Feed} : m ≤ n → f.Abreast g rest m f' → good a a' f →
      Alike g rest d n good (.ok a ⟨f, d⟩) (.ok a' ⟨f', d⟩)
  | complaint {m : Nat} {c : Complaint} {f f' : Feed} : m ≤ n → f.Abreast g rest m f' →
      Alike g rest d n good (.error (.diagnostic (.atToken f.current c)) ⟨f, d⟩)
        (.error (.diagnostic (.atToken f'.current c)) ⟨f', d⟩)

def SameNode (a a' : Node) (_ : Feed) : Prop := a.same a' = true

section Combinators

variable {d n : Nat} {f f' : Feed} {good : α → α → Feed → Prop} {good' : β → β → Feed → Prop}

theorem Alike.mono {m : Nat} (h : m ≤ n) {r r' : EStateM.Result Stop Parser α}
    (hr : Alike g rest d m good r r') : Alike g rest d n good r r' := by
  cases hr with
  | ok hm ha hg => exact .ok (Nat.le_trans hm h) ha hg
  | complaint hm ha => exact .complaint (Nat.le_trans hm h) ha

theorem Alike.bind {x x' : Rule α} {k k' : α → Rule β} {p p' : Parser}
    (hx : Alike g rest d n good (x p) (x' p'))
    (hk : ∀ m a a' f f', f.Abreast g rest m f' → m ≤ n → good a a' f →
      Alike g rest d m good' (k a ⟨f, d⟩) (k' a' ⟨f', d⟩)) :
    Alike g rest d n good' ((x >>= k) p) ((x' >>= k') p') := by
  generalize hr : x p = r, hr' : x' p' = r' at hx
  cases hx with
  | ok hm ha hg =>
    rw [bind_ok hr, bind_ok hr']
    exact (hk _ _ _ _ _ ha hm hg).mono hm
  | complaint hm ha =>
    rw [bind_error hr, bind_error hr']
    exact .complaint hm ha

theorem alike_pure {a a' : α} (h : f.Abreast g rest n f') (hg : good a a' f) :
    Alike g rest d n good ((pure a : Rule α) ⟨f, d⟩) ((pure a' : Rule α) ⟨f', d⟩) :=
  .ok (Nat.le_refl n) h hg

theorem alike_fail (h : f.Abreast g rest n f') (c : Complaint) :
    Alike g rest d n good ((fail c : Rule α) ⟨f, d⟩) ((fail c : Rule α) ⟨f', d⟩) :=
  .complaint (Nat.le_refl n) h

theorem alike_fail_bind {k k' : α → Rule β} (h : f.Abreast g rest n f') (c : Complaint) :
    Alike g rest d n good' ((fail c >>= k) ⟨f, d⟩) ((fail c >>= k') ⟨f', d⟩) :=
  .complaint (Nat.le_refl n) h

theorem alike_advance_bind {k k' : Unit → Rule β} (h : f.Abreast g rest n f')
    (hk : f.current.kind ≠ .endOfInput)
    (hr : ∀ m f₁ f₁', n = m + 1 → f₁.Abreast g rest m f₁' →
      Alike g rest d m good' (k () ⟨f₁, d⟩) (k' () ⟨f₁', d⟩)) :
    Alike g rest d n good' ((Rule.advance >>= k) ⟨f, d⟩) ((Rule.advance >>= k') ⟨f', d⟩) := by
  obtain ⟨m, f₁, f₁', rfl, -, ha, ha', h₁⟩ := h.advance hk
  rw [advance_bind ha, advance_bind ha']
  exact (hr m f₁ f₁' rfl h₁).mono (Nat.le_succ m)

theorem alike_nested {x : Rule α}
    (h : Alike g rest (d + 1) n good (x ⟨f, d + 1⟩) (x ⟨f', d + 1⟩)) :
    Alike g rest d n good (nested x ⟨f, d⟩) (nested x ⟨f', d⟩) := by
  simp only [nested]
  generalize x ⟨f, d + 1⟩ = r, x ⟨f', d + 1⟩ = r' at h
  cases h with
  | ok hm ha hg => exact .ok hm ha hg
  | complaint hm ha => exact .complaint hm ha

end Combinators

/-- Feeds that are abreast make no difference to a rule for expressions. -/
def KeepsAbreast (g : Grammar) (rest : List Token) (d : Nat) (e : Rule Node) : Prop :=
  ∀ n f f', f.Abreast g rest n f' → Alike g rest d n SameNode (e ⟨f, d⟩) (e ⟨f', d⟩)

section Operands

variable {e : Rule Node} {d n k k' : Nat} {f f' : Feed}

theorem same_number {v : Double} (h : Payload.number v ≠ .number .nan) (start start' : Position) :
    (Node.number v start).same (.number v start') = true := by
  cases v with
  | nan => exact absurd rfl h
  | signed => simp only [Node.same, Double.same_self]

theorem alike_number (h : f.Abreast g rest n f') (hk : f.current.kind = .number) :
    Alike g rest d n SameNode (number ⟨f, d⟩) (number ⟨f', d⟩) := by
  have hne : f.current.kind ≠ .endOfInput := by rw [hk]; decide
  obtain ⟨-, -, -, -, hl, -⟩ := h.advance hne
  simp only [number, current_bind, ← hl.payload_eq, ← hl.text_eq]
  have hnan := hl.payload_ne
  cases hp : f.current.payload with
  | none => exact alike_fail h _
  | number v =>
    refine alike_advance_bind h hne fun m f₁ f₁' _ h₁ => alike_pure h₁ ?_
    rw [hp] at hnan
    exact same_number hnan _ _
  | text s =>
    refine alike_advance_bind h hne fun m f₁ f₁' _ h₁ => alike_pure h₁ ?_
    simp [SameNode, Node.same]

theorem alike_expect {s : String} (hs : IsMark s) (c : Complaint) (h : f.Abreast g rest n f') :
    Alike g rest d n (fun _ _ _ => True) (expect s c ⟨f, d⟩) (expect s c ⟨f', d⟩) := by
  simp only [expect, current_bind, ← h.isChar_eq hs]
  cases hc : f.current.isChar s with
  | true =>
    obtain ⟨m, f₁, f₁', rfl, -, ha, ha', h₁⟩ := h.advance (Token.kind_ne_of_isChar hc)
    simp only [if_true, advance_ok ha, advance_ok ha']
    exact .ok (Nat.le_succ m) h₁ trivial
  | false => exact alike_fail h c

theorem alike_parenthesized (he : KeepsAbreast g rest d e) (h : f.Abreast g rest n f')
    (hc : f.current.isChar "(" = true) :
    Alike g rest d n SameNode (parenthesized e ⟨f, d⟩) (parenthesized e ⟨f', d⟩) := by
  refine alike_advance_bind h (Token.kind_ne_of_isChar hc) fun m f₁ f₁' _ h₁ => ?_
  refine (he m f₁ f₁' h₁).bind ?_
  intro m a a' f₂ f₂' h₂ _ ha
  refine (alike_expect (.inr (.inl rfl)) _ h₂).bind ?_
  intro m _ _ f₃ f₃' h₃ _ _
  exact alike_pure h₃ ha

theorem alike_argumentsAfter (he : KeepsAbreast g rest d e) (h : f.Abreast g rest n f')
    (hk : n ≤ k) (hk' : n ≤ k') :
    Alike g rest d n (fun as as' f => Node.sameAll as as' = true ∧ f.current.isChar ")" = true)
      (argumentsAfter e k ⟨f, d⟩) (argumentsAfter e k' ⟨f', d⟩) := by
  -- On the shared tokens, not on the turns: the two loops are given different numbers of turns.
  induction n using Nat.strongRecOn generalizing k k' f f' with
  | ind n ih =>
    simp only [argumentsAfter, current_bind, ← h.isChar_eq (.inr (.inl rfl)),
      ← h.isChar_eq (.inr (.inr rfl))]
    split
    · next hc => exact alike_pure h ⟨rfl, hc⟩
    · split
      · next hc =>
        refine alike_advance_bind h (Token.kind_ne_of_isChar hc) fun m f₁ f₁' hm h₁ => ?_
        obtain ⟨k, rfl⟩ := Nat.exists_eq_add_one.2 (show 0 < k by omega)
        obtain ⟨k', rfl⟩ := Nat.exists_eq_add_one.2 (show 0 < k' by omega)
        rw [argumentsWithin_succ, argumentsWithin_succ]
        refine (he m f₁ f₁' h₁).bind ?_
        intro m' a a' f₂ f₂' h₂ hm' ha
        have hk₂ : m' ≤ k := by omega
        have hk₂' : m' ≤ k' := by omega
        refine (ih m' (by omega) h₂ hk₂ hk₂').bind ?_
        intro _ as as' f₃ f₃' h₃ _ has
        exact alike_pure h₃ ⟨Node.sameAll_cons ha has.1, has.2⟩
      · exact alike_fail h _

theorem alike_arguments (he : KeepsAbreast g rest d e) (h : f.Abreast g rest n f') :
    Alike g rest d n (fun as as' f => Node.sameAll as as' = true ∧ f.current.isChar ")" = true)
      (arguments e ⟨f, d⟩) (arguments e ⟨f', d⟩) := by
  have hc' := h.isChar_eq (s := ")") (.inr (.inl rfl))
  cases hc : f.current.isChar ")" with
  | true =>
    rw [arguments_none hc, arguments_none (hc'.symm.trans hc)]
    exact .ok (Nat.le_refl n) h ⟨rfl, hc⟩
  | false =>
    rw [arguments_some hc, arguments_some (hc'.symm.trans hc), argumentsWithin_succ,
      argumentsWithin_succ]
    obtain ⟨hsize, hsize'⟩ := h.le_size
    refine (he n f f' h).bind ?_
    intro m a a' f₁ f₁' h₁ hm ha
    refine (alike_argumentsAfter he h₁ (by omega) (by omega)).bind ?_
    intro _ as as' f₂ f₂' h₂ _ has
    exact alike_pure h₂ ⟨Node.sameAll_cons ha has.1, has.2⟩

theorem alike_identifier (he : KeepsAbreast g rest d e) (h : f.Abreast g rest n f')
    (hi : f.current.kind = .identifier) :
    Alike g rest d n SameNode (identifier e ⟨f, d⟩) (identifier e ⟨f', d⟩) := by
  have hk : f.current.kind ≠ .endOfInput := by rw [hi]; decide
  obtain ⟨-, -, -, -, hl, -⟩ := h.advance hk
  simp only [identifier, take, bind_assoc, pure_bind, current_bind, ← hl.text_eq]
  refine alike_advance_bind h hk fun m f₁ f₁' _ h₁ => ?_
  simp only [current_bind, ← h₁.isChar_eq (s := "(") (.inl rfl)]
  split
  · next hc =>
    refine alike_advance_bind h₁ (Token.kind_ne_of_isChar hc) fun m₂ f₂ f₂' _ h₂ => ?_
    refine (alike_arguments he h₂).bind ?_
    intro m₃ as as' f₃ f₃' h₃ _ has
    refine alike_advance_bind h₃ (Token.kind_ne_of_isChar has.2) fun m₄ f₄ f₄' _ h₄ => ?_
    exact alike_pure h₄ (by simp [SameNode, Node.same, has.1])
  · exact alike_pure h₁ (by simp [SameNode, Node.same])

theorem alike_primary (he : KeepsAbreast g rest d e) : KeepsAbreast g rest d (primary e) := by
  intro n f f' h
  by_cases hi : f.current.kind = .identifier
  · rw [primary_of_identifier hi, primary_of_identifier (h.identifier_iff.1 hi)]
    exact alike_identifier he h hi
  by_cases hn : f.current.kind = .number
  · rw [primary_of_number hn, primary_of_number (h.number_iff.1 hn)]
    exact alike_number h hn
  have hi' : f'.current.kind ≠ .identifier := mt h.identifier_iff.2 hi
  have hn' : f'.current.kind ≠ .number := mt h.number_iff.2 hn
  have hc' := h.isChar_eq (s := "(") (.inl rfl)
  cases hc : f.current.isChar "(" with
  | true =>
    rw [primary_of_opening hc, primary_of_opening (hc'.symm.trans hc)]
    exact alike_parenthesized he h hc
  | false =>
    rw [primary_of_other hi hn hc, primary_of_other hi' hn' (hc'.symm.trans hc)]
    exact alike_fail h _

end Operands

end Rule

namespace Chain

structure LikeLink (l l' : Link) : Prop where
  text_eq : l.operator.text = l'.operator.text
  level_eq : l.level = l'.level
  operand : l.operand.same l'.operand = true

structure LikePending (p p' : Pending) : Prop where
  text_eq : p.operator.text = p'.operator.text
  level_eq : p.level = p'.level
  left : p.left.same p'.left = true

theorem same_join {left left' right right' : Node} {t t' : Token} (ht : t.text = t'.text)
    (hl : left.same left' = true) (hr : right.same right' = true) :
    (join left t right).same (join left' t' right') = true := by
  simp only [join, Node.same, ht, hl, hr, BEq.rfl, Bool.and_self]

theorem same_close {ps ps' : List Pending} (h : List.Forall₂ LikePending ps ps')
    {right right' : Node} (hr : right.same right' = true) :
    (close ps right).same (close ps' right') = true := by
  induction h generalizing right right' with
  | nil => exact hr
  | cons hp _ ih => exact ih (same_join hp.text_eq hp.left hr)

theorem same_reduce (level : Int) {ps ps' : List Pending} (h : List.Forall₂ LikePending ps ps')
    {right right' : Node} (hr : right.same right' = true) :
    List.Forall₂ LikePending (reduce level ps right).1 (reduce level ps' right').1 ∧
      (reduce level ps right).2.same (reduce level ps' right').2 = true := by
  induction h generalizing right right' with
  | nil => exact ⟨.nil, hr⟩
  | cons hp hps ih =>
    simp only [reduce, ← hp.level_eq]
    split
    · exact ih (same_join hp.text_eq hp.left hr)
    · exact ⟨.cons hp hps, hr⟩

theorem same_grow {ls ls' : List Link} (h : List.Forall₂ LikeLink ls ls')
    {ps ps' : List Pending} (hps : List.Forall₂ LikePending ps ps') {last last' : Node}
    (hr : last.same last' = true) : (grow ps last ls).same (grow ps' last' ls') = true := by
  induction h generalizing ps ps' last last' with
  | nil => exact same_close hps hr
  | cons hl _ ih =>
    obtain ⟨hps, hleft⟩ := same_reduce _ hps hr
    simp only [grow, ← hl.level_eq]
    refine ih (.cons ?_ hps) hl.operand
    exact ⟨hl.text_eq, rfl, hleft⟩

theorem same_tree {first first' : Node} (hf : first.same first' = true) {ls ls' : List Link}
    (h : List.Forall₂ LikeLink ls ls') : (tree first ls).same (tree first' ls') = true :=
  same_grow h .nil hf

end Chain

namespace Grammar

open Rule

variable {g : Grammar} {rest : List Token} {d n k k' : Nat} {f f' : Feed}

theorem alike_linksWithin {operand : Rule Node} (ho : KeepsAbreast g rest d operand)
    (h : f.Abreast g rest n f') (hk : n < k) (hk' : n < k') :
    Alike g rest d n (fun ls ls' _ => List.Forall₂ Chain.LikeLink ls ls')
      (g.linksWithin operand 0 k ⟨f, d⟩) (g.linksWithin operand 0 k' ⟨f', d⟩) := by
  induction n using Nat.strongRecOn generalizing k k' f f' with
  | ind n ih =>
    obtain ⟨k, rfl⟩ := Nat.exists_eq_add_one.2 (show 0 < k by omega)
    obtain ⟨k', rfl⟩ := Nat.exists_eq_add_one.2 (show 0 < k' by omega)
    by_cases hlevel : g.level f.current < 0
    · rw [linksWithin_stop hlevel, linksWithin_stop (h.level_eq ▸ hlevel)]
      exact .ok (Nat.le_refl n) h .nil
    · have hpos : 0 < g.level f.current := by
        have := level_pos_or g f.current
        omega
      obtain ⟨m, f₁, f₁', rfl, hl, ha, ha', h₁⟩ := h.advance (kind_ne_of_level_pos hpos)
      rw [linksWithin_link (Int.not_lt.1 hlevel) ha,
        linksWithin_link (h.level_eq ▸ Int.not_lt.1 hlevel) ha']
      refine ((ho m f₁ f₁' h₁).bind ?_).mono (Nat.le_succ m)
      intro m₂ right right' f₂ f₂' h₂ hm hright
      have hk₂ : m₂ < k := by omega
      have hk₂' : m₂ < k' := by omega
      refine (ih m₂ (by omega) h₂ hk₂ hk₂').bind ?_
      intro _ ls ls' f₃ f₃' h₃ _ hls
      exact alike_pure h₃ (.cons ⟨hl.text_eq, h.level_eq, hright⟩ hls)

theorem alike_expressionWithin (k : Nat) : KeepsAbreast g rest d (g.expressionWithin k) := by
  induction k generalizing d with
  | zero => exact fun n f f' h => alike_fail h _
  | succ k ih =>
    intro n f f' h
    rw [expressionWithin_succ]
    refine alike_nested ((alike_primary ih n f f' h).bind ?_)
    intro m left left' f₁ f₁' h₁ _ hleft
    rw [operators_eq, operators_eq]
    obtain ⟨hsize, hsize'⟩ := h₁.le_size
    refine (alike_linksWithin (alike_primary ih) h₁ (Nat.lt_succ_of_le hsize)
      (Nat.lt_succ_of_le hsize')).bind ?_
    intro _ ls ls' f₂ f₂' h₂ _ hls
    exact alike_pure h₂ (Chain.same_tree hleft hls)

theorem alike_expression : KeepsAbreast g rest d g.expression :=
  fun n f f' h => alike_expressionWithin (g.room d) n f f' h

end Grammar

namespace Rule

variable {g : Grammar} {rest : List Token} {d n k k' : Nat} {f f' : Feed}

theorem alike_parametersWithin (h : f.Abreast g rest n f') (hne : f.current.kind ≠ .endOfInput)
    (hk : n ≤ k) (hk' : n ≤ k') :
    Alike g rest d n (fun ps ps' _ => ps = ps') (parametersWithin k ⟨f, d⟩)
      (parametersWithin k' ⟨f', d⟩) := by
  induction n generalizing k k' f f' with
  | zero =>
    obtain ⟨m, -, -, hm, -⟩ := h.advance hne
    omega
  | succ n ih =>
    obtain ⟨k, rfl⟩ := Nat.exists_eq_add_one.2 (show 0 < k by omega)
    obtain ⟨k', rfl⟩ := Nat.exists_eq_add_one.2 (show 0 < k' by omega)
    refine alike_advance_bind h hne fun m f₁ f₁' hm h₁ => ?_
    obtain rfl : n = m := by omega
    simp only [current_bind, ← h₁.identifier_iff]
    split
    · next hi =>
      have hne₁ : f₁.current.kind ≠ .endOfInput := by rw [hi]; decide
      obtain ⟨-, -, -, -, hl, -⟩ := h₁.advance hne₁
      refine (ih h₁ hne₁ (Nat.le_of_succ_le_succ hk) (Nat.le_of_succ_le_succ hk')).bind ?_
      intro _ ps ps' f₂ f₂' h₂ _ hps
      exact alike_pure h₂ (by rw [hl.text_eq, hps])
    · exact alike_pure h₁ rfl

theorem alike_prototype (h : f.Abreast g rest n f') :
    Alike g rest d n SameNode (prototype ⟨f, d⟩) (prototype ⟨f', d⟩) := by
  simp only [prototype, current_bind]
  by_cases hi : f.current.kind = .identifier
  · have hk : f.current.kind ≠ .endOfInput := by rw [hi]; decide
    obtain ⟨-, -, -, -, hl, -⟩ := h.advance hk
    simp only [hi, h.identifier_iff.1 hi, ne_eq, not_true_eq_false, if_false, ← hl.text_eq]
    refine alike_advance_bind h hk fun m f₁ f₁' _ h₁ => ?_
    simp only [current_bind, ← h₁.isChar_eq (s := "(") (.inl rfl)]
    cases hc : f₁.current.isChar "(" with
    | true =>
      obtain ⟨hsize, hsize'⟩ := h₁.le_size
      simp only [Bool.not_true, Bool.false_eq_true, if_false, turns_bind]
      refine (alike_parametersWithin h₁ (Token.kind_ne_of_isChar hc) (by omega)
        (by omega)).bind ?_
      intro _ ps ps' f₂ f₂' h₂ _ hps
      refine (alike_expect (.inr (.inl rfl)) _ h₂).bind ?_
      intro _ _ _ f₃ f₃' h₃ _ _
      exact alike_pure h₃ (by simp [SameNode, Node.same, hps])
    | false =>
      simp only [Bool.not_false, if_true]
      exact alike_fail_bind h₁ _
  · have hi' : f'.current.kind ≠ .identifier := mt h.identifier_iff.2 hi
    simp only [ne_eq, hi, hi', not_false_eq_true, if_true]
    exact alike_fail_bind h _

end Rule

namespace Grammar

open Rule

variable {g : Grammar} {rest : List Token} {n : Nat} {f f' : Feed}

/-- A rule for constructs does the same on both feeds, as long as the first is not at its end. -/
theorem alike_rule (kind : ConstructKind) (h : f.Abreast g rest n f')
    (hk : f.current.kind ≠ .endOfInput) :
    Alike g rest 0 n SameNode (g.rule kind ⟨f, 0⟩) (g.rule kind ⟨f', 0⟩) := by
  obtain ⟨-, -, -, -, hl, -⟩ := h.advance hk
  cases kind with
  | definition =>
    simp only [rule, definition, current_bind, ← hl.kind_eq]
    by_cases hd : f.current.kind = .define
    · simp only [hd, ne_eq, not_true_eq_false, if_false]
      refine alike_advance_bind h hk fun m f₁ f₁' _ h₁ => (alike_prototype h₁).bind ?_
      intro _ proto proto' f₂ f₂' h₂ _ hproto
      refine (alike_expression _ f₂ f₂' h₂).bind ?_
      intro _ body body' f₃ f₃' h₃ _ hbody
      exact alike_pure h₃ (Node.same_function hproto hbody)
    · simp only [ne_eq, hd, not_false_eq_true, if_true]
      exact alike_fail_bind h _
  | external =>
    simp only [rule, external, current_bind, ← hl.kind_eq]
    by_cases hx : f.current.kind = .external
    · simp only [hx, ne_eq, not_true_eq_false, if_false]
      exact alike_advance_bind h hk fun m f₁ f₁' _ h₁ => alike_prototype h₁
    · simp only [ne_eq, hx, not_false_eq_true, if_true]
      exact alike_fail_bind h _
  | expression =>
    simp only [rule, standalone, current_bind]
    refine (alike_expression n f f' h).bind ?_
    intro _ body body' f₁ f₁' h₁ _ hbody
    exact alike_pure h₁ (Node.same_function (by simp [Node.same]) hbody)

end Grammar

end Kaleidoscope
