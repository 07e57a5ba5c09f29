import Kaleidoscope.Proofs.Continuation
import Kaleidoscope.Proofs.Indentation
import Kaleidoscope.Proofs.WrittenForms

/-! The outline tells a tree. A node's own line tells its kind and what it carries, the indentation
where its children end, so nothing is lost of a parsed tree but the positions. -/

set_option autoImplicit false

namespace Kaleidoscope

theorem intercalate_inj {α : Type} {c : α} {cs : List α} {xs ys : List (List α)}
    (hx : ∀ x ∈ xs, c ∉ x) (hy : ∀ y ∈ ys, c ∉ y) (hxs : xs ≠ []) (hys : ys ≠ [])
    (h : (c :: cs).intercalate xs = (c :: cs).intercalate ys) : xs = ys := by
  induction xs generalizing ys with
  | nil => exact absurd rfl hxs
  | cons x xs ih =>
    obtain ⟨y, ys, rfl⟩ := List.exists_cons_of_ne_nil hys
    obtain ⟨hfirst, hrest⟩ := List.forall_mem_cons.1 hx
    obtain ⟨hfirst', hrest'⟩ := List.forall_mem_cons.1 hy
    cases xs with
    | nil =>
      cases ys with
      | nil =>
        rw [List.intercalate_singleton, List.intercalate_singleton] at h
        rw [h]
      | cons y' ys =>
        rw [List.intercalate_singleton, List.intercalate_cons_cons] at h
        exact absurd (by simp [h]) hfirst
    | cons x' xs =>
      cases ys with
      | nil =>
        rw [List.intercalate_singleton, List.intercalate_cons_cons] at h
        exact absurd (by simp [← h]) hfirst'
      | cons y' ys =>
        rw [List.intercalate_cons_cons, List.intercalate_cons_cons, List.append_assoc,
          List.append_assoc, List.cons_append, List.cons_append] at h
        obtain ⟨rfl, htail⟩ := append_cons_inj hfirst hfirst' h
        rw [ih hrest hrest' (List.cons_ne_nil _ _) (List.cons_ne_nil _ _)
          (List.append_cancel_left htail)]

theorem joined_inj {separator : String} {c : Char} {cs : List Char}
    (hs : separator.toList = c :: cs) {xs ys : List String} (hx : ∀ x ∈ xs, c ∉ x.toList)
    (hy : ∀ y ∈ ys, c ∉ y.toList) (hxs : xs ≠ []) (hys : ys ≠ [])
    (h : separator.intercalate xs = separator.intercalate ys) : xs = ys := by
  have hchars := congrArg String.toList h
  rw [String.toList_intercalate, String.toList_intercalate, hs] at hchars
  have hmap := intercalate_inj (by simpa using hx) (by simpa using hy) (by simpa using hxs)
    (by simpa using hys) hchars
  exact List.map_injective_iff.2 (fun _ _ => String.toList_inj.1) hmap

theorem IsName.isAlphanum {s : String} (h : IsName s) : ∀ c ∈ s.toList, c.isAlphanum = true := by
  obtain ⟨c, cs, hs, hc, hcs⟩ := h.spelled
  rw [hs]
  exact List.forall_mem_cons.2 ⟨by simp [Char.isAlphanum, hc], hcs⟩

theorem IsName.notMem {s : String} (h : IsName s) {c : Char} (hc : c.isAlphanum = false) :
    c ∉ s.toList := by
  intro hmem
  rw [h.isAlphanum c hmem] at hc
  cases hc

theorem IsName.ne_empty {s : String} (h : IsName s) : s ≠ "" := by
  obtain ⟨c, cs, hs, -⟩ := h.spelled
  rintro rfl
  cases hs

theorem params_inj {ps qs : List String} (hp : ∀ p ∈ ps, IsName p) (hq : ∀ q ∈ qs, IsName q)
    (h : ", ".intercalate ps = ", ".intercalate qs) : ps = qs := by
  have hempty : ∀ {rs : List String}, (∀ r ∈ rs, IsName r) → "" = ", ".intercalate rs →
      rs = [] := by
    intro rs hr he
    cases rs with
    | nil => rfl
    | cons r rs =>
      have hfirst := (hr r List.mem_cons_self).ne_empty
      cases rs with
      | nil =>
        rw [String.intercalate_singleton] at he
        exact absurd he.symm hfirst
      | cons r' rs =>
        rw [String.intercalate_cons_cons] at he
        exact absurd he (by simp)
  cases ps with
  | nil => exact (hempty hq h).symm
  | cons p ps =>
    cases qs with
    | nil => exact hempty hp h.symm
    | cons q qs =>
      have hcomma : Char.isAlphanum ',' = false := by decide
      exact joined_inj (c := ',') rfl (fun r hr => (hp r hr).notMem hcomma)
        (fun r hr => (hq r hr).notMem hcomma) (List.cons_ne_nil _ _) (List.cons_ne_nil _ _) h

namespace Node

/-- The nodes are of one kind and carry the same, whatever their children. -/
inductive RootsAgree : Node → Node → Prop where
  | number {rank : Fin (infinityRank + 1)} {start start' : Position} :
      RootsAgree (.number (.signed false rank) start) (.number (.signed false rank) start')
  | var {name : String} {start start' : Position} :
      RootsAgree (.var name start) (.var name start')
  | binary {operator : String} {left right left' right' : Node} {start start' : Position} :
      RootsAgree (.binary operator left right start) (.binary operator left' right' start')
  | call {callee : String} {args args' : List Node} {start start' : Position} :
      RootsAgree (.call callee args start) (.call callee args' start')

end Node

section Roots

variable {g g' : Grammar} {n n' : Node}

theorem Grammar.WellFormed.rootsAgree (h : g.WellFormed n) (h' : g'.WellFormed n')
    (he : n.headline = n'.headline) : n.RootsAgree n' := by
  have hchars := congrArg String.toList he
  cases h with
  | number =>
    cases h' with
    | number =>
      have hrank := Double.rank_eq_of_numeral_eq (by simpa [Node.headline, toString] using he)
      exact hrank ▸ .number
    | var | binary | call => simp [Node.headline, toString] at hchars
  | var =>
    cases h' with
    | var =>
      obtain rfl : _ = _ := by simpa [Node.headline, toString] using he
      exact .var
    | number | binary | call => simp [Node.headline, toString] at hchars
  | binary =>
    cases h' with
    | binary =>
      obtain rfl : _ = _ := by simpa [Node.headline, toString] using he
      exact .binary
    | number | var | call => simp [Node.headline, toString] at hchars
  | call =>
    cases h' with
    | call =>
      obtain rfl : _ = _ := by simpa [Node.headline, toString] using he
      exact .call
    | number | var | binary => simp [Node.headline, toString] at hchars

theorem Grammar.WellFormed.head_headline (h : g.WellFormed n) :
    n.headline.toList.head? ≠ some ' ' := by
  cases h <;> simp [Node.headline, toString]

end Roots

/-- The next line is indented no further, if there is one. -/
def Outdented (indent : Int) (rest : List String) : Prop :=
  ∀ line ∈ rest.head?, indentation line ≤ indent.toNat

theorem outdented_nil {indent : Int} : Outdented indent [] := by simp [Outdented]

theorem Outdented.mono {indent indent' : Int} {rest : List String} (h : Outdented indent rest)
    (hi : indent ≤ indent') : Outdented indent' rest := by
  intro line hline
  have := h line hline
  omega

section Lines

variable {g g' : Grammar} {n n' : Node} {indent : Int} {label : String} {rest rest' : List String}

theorem Grammar.WellFormed.indentation_line (h : g.WellFormed n)
    (hl : label.toList.head? ≠ some ' ') :
    indentation (Node.margin indent ++ label ++ n.headline) = indent.toNat := by
  rw [String.append_assoc]
  refine indentation_eq ?_ indent
  rw [String.toList_append]
  cases ht : label.toList with
  | nil => exact h.head_headline
  | cons c cs =>
    rw [ht] at hl
    exact hl

theorem Grammar.WellFormed.outdented_lines (h : g.WellFormed n)
    (hl : label.toList.head? ≠ some ' ') : Outdented indent (n.lines indent label ++ rest) := by
  intro line hline
  rw [Node.lines_cons] at hline
  cases hline
  exact Nat.le_of_eq (h.indentation_line hl)

theorem Grammar.WellFormed.not_outdented (h : g.WellFormed n) (hl : label.toList.head? ≠ some ' ')
    (hi : 0 ≤ indent) : ¬Outdented indent (n.lines (indent + 4) label ++ rest) := by
  intro hout
  rw [Node.lines_cons] at hout
  have hle := hout _ rfl
  rw [h.indentation_line hl] at hle
  omega

theorem Node.head_argumentRole (i : Nat) :
    (argumentRole i ++ ": ").toList.head? ≠ some ' ' := by simp [argumentRole, toString]

theorem Grammar.WellFormed.outdented_arguments {args : List Node} (h : ∀ a ∈ args, g.WellFormed a)
    (hr : Outdented indent rest) (i : Nat) :
    Outdented indent (Node.argumentLines indent i args ++ rest) := by
  cases args with
  | nil => exact hr
  | cons a as =>
    rw [Node.argumentLines, List.append_assoc]
    exact (h a List.mem_cons_self).outdented_lines (Node.head_argumentRole i)

end Lines

namespace Node

/-- The lines of two nodes, whatever comes after them that is indented no further, tell where they
end, and whether the nodes are the same. -/
def Told (n n' : Node) : Prop :=
  ∀ {indent : Int} {label : String} {rest rest' : List String}, 0 ≤ indent →
    Outdented indent rest → Outdented indent rest' →
    n.lines indent label ++ rest = n'.lines indent label ++ rest' →
    n.same n' = true ∧ rest = rest'

end Node

section Told

variable {g g' : Grammar} {n n' : Node} {indent : Int} {rest rest' : List String}

theorem Node.arguments_told {args args' : List Node} (hargs : ∀ a ∈ args, g.WellFormed a)
    (hargs' : ∀ a ∈ args', g'.WellFormed a)
    (htold : ∀ a ∈ args, ∀ a', g'.WellFormed a' → a.Told a') (hi : 0 ≤ indent)
    (hr : Outdented indent rest) (hr' : Outdented indent rest') (i : Nat)
    (h : argumentLines (indent + 4) i args ++ rest = argumentLines (indent + 4) i args' ++ rest') :
    sameAll args args' = true ∧ rest = rest' := by
  induction args generalizing args' i with
  | nil =>
    cases args' with
    | nil => exact ⟨rfl, h⟩
    | cons a' as' =>
      rw [argumentLines, argumentLines, List.nil_append, List.append_assoc] at h
      rw [h] at hr
      exact absurd hr ((hargs' a' List.mem_cons_self).not_outdented (head_argumentRole i) hi)
  | cons a as ih =>
    cases args' with
    | nil =>
      rw [argumentLines, argumentLines, List.nil_append, List.append_assoc] at h
      rw [← h] at hr'
      exact absurd hr' ((hargs a List.mem_cons_self).not_outdented (head_argumentRole i) hi)
    | cons a' as' =>
      obtain ⟨ha, has⟩ := List.forall_mem_cons.1 hargs
      obtain ⟨ha', has'⟩ := List.forall_mem_cons.1 hargs'
      obtain ⟨hfirst, hothers⟩ := List.forall_mem_cons.1 htold
      rw [argumentLines, argumentLines, List.append_assoc, List.append_assoc] at h
      have hwider : indent ≤ indent + 4 := by omega
      obtain ⟨hsame, htail⟩ := hfirst a' ha' (Int.le_trans hi hwider)
        (Grammar.WellFormed.outdented_arguments has (hr.mono hwider) _)
        (Grammar.WellFormed.outdented_arguments has' (hr'.mono hwider) _) h
      obtain ⟨hsames, hrest⟩ := ih has has' hothers (i + 1) htail
      exact ⟨by simp only [sameAll, hsame, hsames, Bool.and_self], hrest⟩

theorem Grammar.WellFormed.rootsAgree_of_lines (h : g.WellFormed n) (h' : g'.WellFormed n')
    {label : String} (he : n.lines indent label ++ rest = n'.lines indent label ++ rest') :
    n.RootsAgree n' := by
  rw [Node.lines_cons, Node.lines_cons, List.cons_append, List.cons_append] at he
  exact h.rootsAgree h' ((String.append_right_inj _).1 (List.cons.inj he).1)

/-- Expressions are told by their lines: the first line tells a node apart from its children, and
the lines of a child end where those of the next one begin. -/
theorem Grammar.WellFormed.told (h : g.WellFormed n) (h' : g'.WellFormed n') : n.Told n' := by
  induction h generalizing n' with
  | number =>
    intro indent label rest rest' _ _ _ he
    cases (WellFormed.number (g := g)).rootsAgree_of_lines h' he with
    | number => exact ⟨by simp only [Node.same, Double.same_self], (List.cons.inj he).2⟩
  | var hn =>
    intro indent label rest rest' _ _ _ he
    cases (WellFormed.var (g := g) hn).rootsAgree_of_lines h' he with
    | var => exact ⟨by simp only [Node.same, beq_self_eq_true], (List.cons.inj he).2⟩
  | binary ho hl hr ihl ihr =>
    intro indent label rest rest' hi hrest hrest' he
    cases (WellFormed.binary ho hl hr).rootsAgree_of_lines h' he with
    | binary =>
      cases h' with
      | binary _ hl' hr' =>
        rw [Node.lines, Node.lines, List.cons_append, List.cons_append, List.append_assoc,
          List.append_assoc] at he
        have hwider : indent ≤ indent + 2 := by omega
        have hfar := Int.le_trans hi hwider
        obtain ⟨hleft, htail⟩ := ihl hl' hfar (hr.outdented_lines (by decide))
          (hr'.outdented_lines (by decide)) (List.cons.inj he).2
        obtain ⟨hright, hend⟩ := ihr hr' hfar (hrest.mono hwider) (hrest'.mono hwider) htail
        exact ⟨by simp only [Node.same, beq_self_eq_true, hleft, hright, Bool.and_self], hend⟩
  | call hn hargs ih =>
    intro indent label rest rest' hi hrest hrest' he
    cases (WellFormed.call hn hargs).rootsAgree_of_lines h' he with
    | call =>
      cases h' with
      | call _ hargs' =>
        rw [Node.lines, Node.lines, List.cons_append, List.cons_append] at he
        obtain ⟨hsames, hend⟩ := Node.arguments_told hargs hargs' (fun a ha a' ha' => ih a ha ha')
          hi hrest hrest' 0 (List.cons.inj he).2
        exact ⟨by simp only [Node.same, beq_self_eq_true, hsames, Bool.and_self], hend⟩

end Told

namespace Node

theorem shownName_eq_of_same {n n' : Node} (h : n.same n' = true) : n.shownName = n'.shownName := by
  unfold same at h
  split at h <;> simp_all [shownName, name?]

mutual

theorem lines_eq_of_same {n n' : Node} (h : n.same n' = true) (indent : Int) (label : String) :
    n.lines indent label = n'.lines indent label := by
  unfold same at h
  split at h
  · rfl
  · rfl
  · rfl
  · simp only [lines, headline, Double.numeral_eq_of_same h]
  · simp only [lines, headline, beq_iff_eq.1 h]
  · simp only [Bool.and_eq_true, beq_iff_eq] at h
    obtain ⟨⟨rfl, hl⟩, hr⟩ := h
    simp only [lines, headline, lines_eq_of_same hl, lines_eq_of_same hr]
  · simp only [Bool.and_eq_true, beq_iff_eq] at h
    obtain ⟨rfl, hs⟩ := h
    simp only [lines, headline, argumentLines_eq_of_sameAll hs]
  · simp only [Bool.and_eq_true, beq_iff_eq] at h
    obtain ⟨rfl, rfl⟩ := h
    rfl
  · simp only [Bool.and_eq_true] at h
    simp only [lines, headline, shownName_eq_of_same h.1, lines_eq_of_same h.1,
      lines_eq_of_same h.2]
  · cases h

theorem argumentLines_eq_of_sameAll {args args' : List Node} (h : sameAll args args' = true)
    (indent : Int) (i : Nat) : argumentLines indent i args = argumentLines indent i args' := by
  unfold sameAll at h
  split at h
  · rfl
  · simp only [Bool.and_eq_true] at h
    simp only [argumentLines, lines_eq_of_same h.1, argumentLines_eq_of_sameAll h.2]
  · cases h

end

end Node

theorem IsName.oneLine {s : String} (h : IsName s) : OneLine s := h.notMem (by decide)

theorem Grammar.IsInfix.oneLine {g : Grammar} {s : String} (h : g.IsInfix s) : OneLine s := by
  obtain ⟨c, hs, hb, -⟩ := h
  rw [OneLine, hs, List.mem_singleton]
  rintro rfl
  exact absurd hb (by decide)

theorem Grammar.WellFormed.oneLine_names {g : Grammar} {n : Node} (h : g.WellFormed n) :
    ∀ name ∈ n.names, OneLine name := by
  cases h with
  | number => simp [Node.names]
  | var hn => exact List.forall_mem_singleton.2 hn.oneLine
  | binary ho => exact List.forall_mem_singleton.2 ho.oneLine
  | call hn => exact List.forall_mem_singleton.2 hn.oneLine

/-- A prototype, with a proper name or with that of anonymous functions. -/
inductive IsHeading : Node → Prop where
  | mk {name : String} {params : List String} {start : Position} :
      (∀ c ∈ name.toList, c.isAlphanum = true ∨ c = '_') → (∀ p ∈ params, IsName p) →
      IsHeading (.prototype name params start)

theorem IsSignature.isHeading {n : Node} (h : IsSignature n) : IsHeading n := by
  cases h with
  | mk hn hp => exact .mk (fun c hc => .inl (hn.isAlphanum c hc)) hp

inductive Grammar.Headed (g : Grammar) : Node → Prop where
  | alone {proto : Node} : IsHeading proto → Headed g proto
  | function {proto body : Node} {start : Position} : IsHeading proto → g.WellFormed body →
      Headed g (.function proto body start)

theorem isHeading_anonymous {start : Position} :
    IsHeading (.prototype Node.anonymousName [] start) := by
  have hname : Node.anonymousName.toList.all (fun c => c.isAlphanum || c == '_') = true := by
    decide
  exact .mk (fun c hc => by simpa using List.all_eq_true.1 hname c hc) (by simp)

theorem Grammar.WellFormedAs.headed {g : Grammar} {kind : ConstructKind} {n : Node}
    (h : g.WellFormedAs kind n) : g.Headed n := by
  cases h with
  | definition hp hb => exact .function hp.isHeading hb
  | external hp => exact .alone hp.isHeading
  | expression hb => exact .function isHeading_anonymous hb

theorem Grammar.Headed.parts {g : Grammar} {n : Node} (h : g.Headed n) {c : Node}
    (hc : c ∈ n.parts) : g.WellFormed c ∨ g.Headed c := by
  cases h with
  | alone hp => cases hp; cases hc
  | function hp hb =>
    rcases List.mem_cons.1 hc with rfl | hc
    · exact .inr (.alone hp)
    · rw [List.mem_singleton.1 hc]
      exact .inl hb

theorem Grammar.WellFormed.parts {g : Grammar} {n : Node} (h : g.WellFormed n) {c : Node}
    (hc : c ∈ n.parts) : g.WellFormed c := by
  cases h with
  | number => cases hc
  | var => cases hc
  | binary _ hl hr =>
    rcases List.mem_cons.1 hc with rfl | hc
    · exact hl
    · rw [List.mem_singleton.1 hc]
      exact hr
  | call _ hargs => exact hargs c hc

theorem Grammar.wellFormed_or_headed_parts {g : Grammar} {n c : Node}
    (h : g.WellFormed n ∨ g.Headed n) (hc : c ∈ n.parts) : g.WellFormed c ∨ g.Headed c := by
  rcases h with hn | hn
  · exact .inl (hn.parts hc)
  · exact hn.parts hc

namespace IsHeading

variable {n n' : Node} {indent : Int} {label : String}

theorem lines_eq (h : IsHeading n) :
    n.lines indent label = [Node.margin indent ++ label ++ n.headline] := by
  cases h
  rw [Node.lines] <;> simp

theorem oneLine_names (h : IsHeading n) : ∀ name ∈ n.names, OneLine name := by
  cases h with
  | mk hn hp =>
    exact List.forall_mem_cons.2
      ⟨fun hmem => absurd (hn _ hmem) (by decide), fun p hmem => (hp p hmem).oneLine⟩

theorem toList_headline (name : String) (params : List String) (start : Position) :
    (Node.prototype name params start).headline.toList = "Prototype(".toList ++
      (name.toList ++ ',' :: (" params=[" ++ ", ".intercalate params ++ "])").toList) := by
  simp [Node.headline, toString]

theorem same_of_headline_eq (h : IsHeading n) (h' : IsHeading n') (he : n.headline = n'.headline) :
    n.same n' = true := by
  have hcomma : ∀ {s : String}, (∀ c ∈ s.toList, c.isAlphanum = true ∨ c = '_') →
      ',' ∉ s.toList := fun h hmem => absurd (h _ hmem) (by decide)
  cases h with
  | mk hn hp =>
    cases h' with
    | mk hn' hp' =>
      have hchars := congrArg String.toList he
      rw [toList_headline, toList_headline] at hchars
      obtain ⟨hname, hparams⟩ :=
        append_cons_inj (hcomma hn) (hcomma hn') (List.append_cancel_left hchars)
      have hlist := (String.append_right_inj _).1
        ((String.append_left_inj _).1 (String.toList_inj.1 hparams))
      rw [String.toList_inj.1 hname, params_inj hp hp' hlist]
      simp only [Node.same, beq_self_eq_true, Bool.and_self]

end IsHeading

namespace Grammar.Headed

variable {g g' : Grammar} {n n' : Node}

theorem oneLine_names (h : g.Headed n) : ∀ name ∈ n.names, OneLine name := by
  cases h with
  | alone hp => exact hp.oneLine_names
  | function => simp [Node.names]

theorem unbroken (h : g.Headed n) : n.Unbroken := by
  have hall : ∀ v ∈ n.visits [], g.WellFormed v.node ∨ g.Headed v.node :=
    Node.forall_visits (P := fun n => g.WellFormed n ∨ g.Headed n)
      (fun _ hn _ hc => wellFormed_or_headed_parts hn hc) (.inr h)
  intro v hv
  rcases hall v hv with hw | hh
  · exact hw.oneLine_names
  · exact hh.oneLine_names

theorem same_of_lines_eq (h : g.Headed n) (h' : g'.Headed n')
    (he : n.lines 0 "" = n'.lines 0 "") : n.same n' = true := by
  cases h with
  | alone hp =>
    cases h' with
    | alone hp' =>
      rw [hp.lines_eq, hp'.lines_eq] at he
      exact hp.same_of_headline_eq hp' ((String.append_right_inj _).1 (List.cons.inj he).1)
    | function hp' hb' =>
      rw [hp.lines_eq, Node.lines, hp'.lines_eq] at he
      cases (List.cons.inj he).2
  | function hp hb =>
    cases h' with
    | alone hp' =>
      rw [hp'.lines_eq, Node.lines, hp.lines_eq] at he
      cases (List.cons.inj he).2
    | function hp' hb' =>
      rw [Node.lines, Node.lines, hp.lines_eq, hp'.lines_eq] at he
      obtain ⟨hproto, hbody⟩ := List.cons.inj (List.cons.inj he).2
      have hheading := hp.same_of_headline_eq hp' ((String.append_right_inj _).1 hproto)
      obtain ⟨hsame, -⟩ := hb.told hb' (by decide : (0 : Int) ≤ 0 + 2) outdented_nil outdented_nil
        (congrArg (· ++ []) hbody)
      simp only [Node.same, hheading, hsame, Bool.and_self]

theorem outlineText_eq_iff (h : g.Headed n) (h' : g'.Headed n') :
    "\n".intercalate (n.lines 0 "") = "\n".intercalate (n'.lines 0 "") ↔ n.same n' = true := by
  refine ⟨fun he => h.same_of_lines_eq h' ?_, fun hs => by rw [Node.lines_eq_of_same hs]⟩
  have hlines := congrArg Text.lines he
  rwa [h.unbroken.lines_text 0 (by decide), h'.unbroken.lines_text 0 (by decide)] at hlines

end Grammar.Headed

theorem Grammar.WellFormedAs.outline_eq {g : Grammar} {kind : ConstructKind} {n : Node}
    (h : g.WellFormedAs kind n) : n.outline = .ok ("\n".intercalate (n.lines 0 "")) := by
  rw [Node.outline, h.flawless.outlineAt_eq]

/-- The trees that come up among the events. -/
def Event.nodes (events : List Event) : List Node := (Event.outcomes events).filterMap Outcome.node?

theorem Event.exists_wellFormedAs {g : Grammar} {events : List Event} {us : List (List Token)}
    (h : List.Forall₂ (fun e u => e.Builds g u ∧ Scanned u) events us) :
    ∀ n ∈ Event.nodes events, ∃ kind, g.WellFormedAs kind n := by
  intro n hn
  obtain ⟨⟨kind, result⟩, ho, hnode⟩ := List.mem_filterMap.1 hn
  obtain ⟨e, he, heo⟩ := List.mem_filterMap.1 ho
  obtain ⟨u, hb, hu⟩ := exists_of_forall₂ h he
  cases e with
  | separator => cases heo
  | outcome o q =>
    cases heo
    cases result with
    | error => cases hnode
    | ok n' =>
      cases hnode
      exact ⟨kind, (hb kind n q rfl).wellFormedAs hu⟩

theorem Setup.exists_wellFormedAs {setup : Setup} {g : Grammar} (hg : setup.grammar = .ok g)
    (text : String) :
    ∃ run, setup.Runs text run ∧ ∀ n ∈ Event.nodes run.events, ∃ kind, g.WellFormedAs kind n := by
  obtain ⟨f, us, finish, -, -, hr, hf, -, -, hb⟩ := run_builds hg text
  exact ⟨_, ⟨hr, hf⟩, Event.exists_wellFormedAs (hb.imp fun _ _ he => ⟨he.1, he.2.2⟩)⟩

/-- Whatever the texts, the tables and the depths allowed, every tree has an outline, and two trees
have the same one if and only if they are the same up to positions. -/
theorem Setup.outline_eq_iff (setup setup' : Setup) (g g' : Grammar) (hg : setup.grammar = .ok g)
    (hg' : setup'.grammar = .ok g') (text text' : String) :
    ∃ run run', setup.Runs text run ∧ setup'.Runs text' run' ∧
      ∀ n ∈ Event.nodes run.events, ∀ n' ∈ Event.nodes run'.events,
        ∃ s s', n.outline = .ok s ∧ n'.outline = .ok s' ∧ (s = s' ↔ n.same n' = true) := by
  obtain ⟨f, us, finish, -, -, hr, hf, -, -, hb⟩ := run_builds hg text
  obtain ⟨f', us', finish', -, -, hr', hf', -, -, hb'⟩ := run_builds hg' text'
  refine ⟨_, _, ⟨hr, hf⟩, ⟨hr', hf'⟩, fun n hn n' hn' => ?_⟩
  obtain ⟨kind, h⟩ := Event.exists_wellFormedAs (hb.imp fun _ _ he => ⟨he.1, he.2.2⟩) n hn
  obtain ⟨kind', h'⟩ := Event.exists_wellFormedAs (hb'.imp fun _ _ he => ⟨he.1, he.2.2⟩) n' hn'
  exact ⟨_, _, h.outline_eq, h'.outline_eq, h.headed.outlineText_eq_iff h'.headed⟩

theorem outline_eq_iff_nested :
    let setup : Setup := { table := some [(.text "(", .integer 5), (.text "+", .integer 1)] }
    let setup' : Setup := {}
    let g : Grammar := { precedence := ⟨[('(', 5), ('+', 1)]⟩ }
    let expression : Node → Node :=
      fun body => .function (.prototype Node.anonymousName [] {}) body {}
    let apart := expression (.call "f" [.call "g" [.var "x" {}] {}, .var "y" {}] {})
    let together := expression (.call "f" [.call "g" [.var "x" {}, .var "y" {}] {}] {})
    setup.grammar = .ok g ∧ setup'.grammar = .ok {} ∧
      ∃ run run', setup.Runs "f(g(x), y)" run ∧ setup'.Runs "(f(g(x, y)))" run' ∧
        (Event.nodes run.events).map apart.same = [true] ∧
        (Event.nodes run'.events).map together.same = [true] ∧
        ∀ n ∈ Event.nodes run.events, ∀ n' ∈ Event.nodes run'.events,
          ∃ s s', n.outline = .ok s ∧ n'.outline = .ok s' ∧ (s = s' ↔ n.same n' = true) := by
  intro setup setup' g expression apart together
  have hg : setup.grammar = .ok g := rfl
  have hg' : setup'.grammar = .ok {} := rfl
  obtain ⟨run, run', hr, hr', hall⟩ :=
    Setup.outline_eq_iff setup setup' g {} hg hg' "f(g(x), y)" "(f(g(x, y)))"
  exact ⟨hg, hg', run, run', hr, hr',
    hr.eq_of_map (fun run => (Event.nodes run.events).map apart.same) (by decide +kernel),
    hr'.eq_of_map (fun run => (Event.nodes run.events).map together.same) (by decide +kernel), hall⟩

end Kaleidoscope
