import Kaleidoscope.Proofs.Acceptance
import Kaleidoscope.Proofs.Printing

/-! What is printed parses back to what it was printed from. Every printed expression is an operand,
so no operator outside of it takes a part of it, and a pair costs a level where its parenthesis is
opened. -/

set_option autoImplicit false

namespace Kaleidoscope

theorem Token.isChar_of_unplaced {t t' : Token} {s : String} (h : t.unplaced = t')
    (hc : t'.isChar s = true) : t.isChar s = true := by
  subst h
  exact hc

theorem Token.stage_of_unplaced {t t' : Token} {s : Stage} (h : t.unplaced = t')
    (hs : t'.stage = s) : t.stage = s := by
  subst h
  exact hs

theorem Token.stage_of_kind {t : Token} (h : t.kind = .identifier ∨ t.kind = .number) :
    t.stage = .construct .expression := by
  obtain h | h := h <;> simp [stage, isChar, h]

namespace Feed

/-- The tokens between two places of a feed are those of the lexemes. -/
def Spells (f : Feed) (ls : List (List Char)) (f' : Feed) : Prop :=
  ∃ u, f.Passes u f' ∧ u.map Token.unplaced = ls.map (Token.ofLexeme {})

variable {f f' : Feed} {l : List Char} {ls ls' : List (List Char)}

theorem Spells.eq_of_nil (h : f.Spells [] f') : f' = f := by
  obtain ⟨u, hp, hu⟩ := h
  cases List.map_eq_nil_iff.1 hu
  exact hp.eq_of_nil

theorem Spells.head (h : f.Spells (l :: ls) f') :
    f.current.unplaced = Token.ofLexeme {} l ∧ f.current.kind ≠ .endOfInput ∧
      ∃ f₁, f.advance = .ok () f₁ ∧ f₁.Spells ls f' := by
  obtain ⟨u, hp, hu⟩ := h
  obtain ⟨t, u₁, rfl, ht, hu₁⟩ := List.map_eq_cons_iff.1 hu
  obtain ⟨rfl, hk, f₁, ha, hp₁⟩ := hp.head
  exact ⟨ht, hk, f₁, ha, u₁, hp₁, hu₁⟩

theorem Spells.split (h : f.Spells (ls ++ ls') f') :
    ∃ f₁, f.Spells ls f₁ ∧ f₁.Spells ls' f' := by
  obtain ⟨u, hp, hu⟩ := h
  rw [List.map_append] at hu
  obtain ⟨u₁, u₂, rfl, h₁, h₂⟩ := List.map_eq_append_iff.1 hu
  obtain ⟨f₁, hp₁, hp₂⟩ := hp.split
  exact ⟨f₁, ⟨u₁, hp₁, h₁⟩, u₂, hp₂, h₂⟩

theorem Spells.size_le (h : f.Spells ls f') : f'.size + ls.length ≤ f.size := by
  obtain ⟨u, hp, hu⟩ := h
  have hlen := congrArg List.length hu
  have hs := hp.size_le
  simp only [List.length_map] at hlen
  omega

end Feed

namespace Node

theorem height_pos (n : Node) : 1 ≤ n.height := by
  cases n <;> simp [height]

theorem wordsAmong_cons_cons (a b : Node) (as : List Node) :
    [[',']].intercalate (wordsAmong (a :: b :: as)) =
      a.words ++ [','] :: [[',']].intercalate (wordsAmong (b :: as)) := by
  simp only [wordsAmong, List.intercalate_cons_cons, List.append_assoc, List.cons_append,
    List.nil_append]

end Node

namespace Grammar

open Rule

variable {g : Grammar}

theorem IsExpression.words_head {n : Node} (h : g.IsExpression n) :
    ∃ l ls, n.words = l :: ls ∧ (Token.ofLexeme {} l).stage = .construct .expression ∧
      (Token.ofLexeme {} l).isChar ")" = false := by
  cases h with
  | number hv =>
    obtain ⟨-, hk, -⟩ := hv.token
    exact ⟨_, _, rfl, Token.stage_of_kind (.inr hk), Token.isChar_of_kind_ne (by rw [hk]; decide)⟩
  | var hn =>
    exact ⟨_, _, rfl, by rw [hn.token]; rfl, by rw [hn.token]; rfl⟩
  | binary => exact ⟨_, _, rfl, by decide, by decide⟩
  | call hn _ =>
    exact ⟨_, _, rfl, by rw [hn.token]; rfl, by rw [hn.token]; rfl⟩

theorem expressionWithin_of_primary {k d : Nat} {f f' : Feed} {n : Node}
    (h : primary (g.expressionWithin k) ⟨f, d + 1⟩ = .ok n ⟨f', d + 1⟩)
    (hl : g.level f'.current < 0) : g.expressionWithin (k + 1) ⟨f, d⟩ = .ok n ⟨f', d⟩ := by
  rw [expressionWithin_succ]
  refine nested_ok ?_
  rw [bind_ok h, operators_ok (p := ⟨f', d + 1⟩) (linksWithin_stop hl)]
  rfl

/-- The rule reads the tree where its words are spelled and a comma or a closing parenthesis
follows. -/
def Reads (rule : Rule Node) (d : Nat) (n : Node) : Prop :=
  ∀ f f', f.Spells n.words f' → (f'.current.isChar "," = true ∨ f'.current.isChar ")" = true) →
    ∃ n', rule ⟨f, d⟩ = .ok n' ⟨f', d⟩ ∧ n.same n' = true

theorem argumentsWithin_spelled {e : Rule Node} {d : Nat} {args : List Node} (hne : args ≠ [])
    (he : ∀ a ∈ args, Reads e d a) {f f' : Feed}
    (hf : f.Spells ([[',']].intercalate (Node.wordsAmong args)) f')
    (hl : f'.current.isChar ")" = true) {n : Nat} (hn : f.size < n) :
    ∃ args', argumentsWithin e n ⟨f, d⟩ = .ok args' ⟨f', d⟩ ∧
      Node.sameAll args args' = true := by
  induction args generalizing f n with
  | nil => contradiction
  | cons a args ih =>
    obtain ⟨ha, has⟩ := List.forall_mem_cons.1 he
    obtain ⟨n, rfl⟩ := Nat.exists_eq_add_one.2 (show 0 < n by omega)
    cases args with
    | nil =>
      obtain ⟨a', hok, hs⟩ := ha f f' (by simpa [Node.wordsAmong] using hf) (.inr hl)
      refine ⟨[a'], argumentsWithin_ok hok (argumentsAfter_closing hl), ?_⟩
      simp [Node.sameAll, hs]
    | cons b args =>
      rw [Node.wordsAmong_cons_cons] at hf
      obtain ⟨f₁, hf₁, hf⟩ := hf.split
      obtain ⟨hcomma, hk, f₂, ha₂, hf₂⟩ := hf.head
      have hc : f₁.current.isChar "," = true := Token.isChar_of_unplaced hcomma (by decide)
      obtain ⟨a', hok, hs⟩ := ha f f₁ hf₁ (.inl hc)
      have hsize := hf₁.size_le
      have hsize' := Feed.size_lt_of_advance hk ha₂
      obtain ⟨args', hargs, hss⟩ := ih (by simp) has hf₂ (n := n) (by omega)
      refine ⟨a' :: args', argumentsWithin_ok hok ?_, ?_⟩
      · rw [argumentsAfter_comma hc ha₂, hargs]
      · simp only [Node.sameAll, hs, hss, Bool.and_self]

theorem level_of_mark (hg : g.precedence.Excludes ['(', ')', ',']) {t : Token}
    (h : t.isChar "," = true ∨ t.isChar ")" = true) :
    g.level t < 0 ∧ t.isChar "(" = false := by
  obtain h | h := h
  · rw [level_of_excludes hg (by simp) h (c := ',') rfl]
    exact ⟨by decide, Token.isChar_eq_false h (by decide)⟩
  · rw [level_of_excludes hg (by simp) h (c := ')') rfl]
    exact ⟨by decide, Token.isChar_eq_false h (by decide)⟩

theorem arguments_spelled {e : Rule Node} {d : Nat} {args : List Node}
    (has : ∀ a ∈ args, g.IsExpression a) (he : ∀ a ∈ args, Reads e d a) {f f' : Feed}
    (hf : f.Spells ([[',']].intercalate (Node.wordsAmong args)) f')
    (hl : f'.current.isChar ")" = true) :
    ∃ args', arguments e ⟨f, d⟩ = .ok args' ⟨f', d⟩ ∧ Node.sameAll args args' = true := by
  cases args with
  | nil =>
    cases Feed.Spells.eq_of_nil hf
    exact ⟨[], arguments_none hl, rfl⟩
  | cons a args =>
    obtain ⟨l, ls, hwords, -, hc⟩ := (has a (by simp)).words_head
    obtain ⟨ls', hls⟩ : ∃ ls', [[',']].intercalate (Node.wordsAmong (a :: args)) = l :: ls' := by
      cases args with
      | nil => exact ⟨ls, by simp [Node.wordsAmong, hwords]⟩
      | cons b args => exact ⟨_, by rw [Node.wordsAmong_cons_cons, hwords, List.cons_append]⟩
    rw [hls] at hf
    have hfirst : f.current.isChar ")" = false := by
      rw [← hf.head.1] at hc
      exact hc
    rw [← hls] at hf
    rw [arguments_some hfirst]
    exact argumentsWithin_spelled (by simp) he hf hl (Nat.lt_succ_self _)

theorem IsOperator.level_pos {s : String} (h : g.IsOperator s) {t : Token}
    (ht : t.unplaced = Token.ofLexeme {} s.toList) : 0 < g.level t ∧ t.text = s := by
  rw [h.token.2] at ht
  obtain ⟨c, hc, hl⟩ := h.level
  have hkind : t.kind = .character := congrArg Token.kind ht
  have hpayload : t.payload = .text s := congrArg Token.payload ht
  refine ⟨?_, congrArg Token.text ht⟩
  simp only [Grammar.level, hkind, hpayload, hc]
  exact hl

/-- The tree is read as an operand where its words are spelled and no parenthesis follows, with
room for `k` levels inside of it. -/
def ReadsOperand (g : Grammar) (k d : Nat) (n : Node) : Prop :=
  ∀ f f', f.Spells n.words f' → f'.current.isChar "(" = false →
    ∃ n', primary (g.expressionWithin k) ⟨f, d⟩ = .ok n' ⟨f', d⟩ ∧ n.same n' = true

theorem ReadsOperand.reads (hg : g.precedence.Excludes ['(', ')', ',']) {k d : Nat} {n : Node}
    (h : g.ReadsOperand k (d + 1) n) : Reads (g.expressionWithin (k + 1)) d n := by
  intro f f' hf hmark
  obtain ⟨hl, hno⟩ := level_of_mark hg hmark
  obtain ⟨n', hok, hs⟩ := h f f' hf hno
  exact ⟨n', expressionWithin_of_primary hok hl, hs⟩

theorem readsOperand_number {v : Double} (hv : IsNumeral v) (start : Position) (k d : Nat) :
    g.ReadsOperand k d (.number v start) := by
  intro f f' hf _
  obtain ⟨-, hkind, v', hp, hs⟩ := hv.token
  obtain ⟨ht, -, f₁, ha, hf₁⟩ := hf.head
  cases hf₁.eq_of_nil
  rw [← ht] at hkind hp
  rw [primary_of_number hkind]
  exact ⟨_, number_ok hp ha, hs⟩

theorem readsOperand_var {name : String} (hn : IsName name) (start : Position) (k d : Nat) :
    g.ReadsOperand k d (.var name start) := by
  intro f f' hf hnext
  obtain ⟨ht, -, f₁, ha, hf₁⟩ := hf.head
  cases hf₁.eq_of_nil
  rw [hn.token] at ht
  have htext : f.current.text = name := congrArg Token.text ht
  rw [primary_of_identifier (congrArg Token.kind ht)]
  refine ⟨_, identifier_variable ha hnext, ?_⟩
  simp [Node.same, htext]

theorem readsOperand_binary (hg : g.precedence.Excludes ['(', ')', ',']) {operator : String}
    (ho : g.IsOperator operator) {left right : Node} {k d : Nat}
    (hleft : g.ReadsOperand k (d + 1) left) (hright : g.ReadsOperand k (d + 1) right)
    (start : Position) : g.ReadsOperand (k + 1) d (.binary operator left right start) := by
  intro f f' hf _
  obtain ⟨hopening, -, f₁, ha, hf₁⟩ := hf.head
  obtain ⟨f₂, hl, hf₂⟩ := hf₁.split
  obtain ⟨hop, hkop, f₃, ha₂, hf₃⟩ := hf₂.head
  obtain ⟨f₄, hr, hf₄⟩ := hf₃.split
  obtain ⟨hclosing, -, f₅, ha₄, hf₅⟩ := hf₄.head
  cases hf₅.eq_of_nil
  have hco : f.current.isChar "(" = true := Token.isChar_of_unplaced hopening (by decide)
  have hcc : f₄.current.isChar ")" = true := Token.isChar_of_unplaced hclosing (by decide)
  obtain ⟨hlevel, htext⟩ := ho.level_pos hop
  obtain ⟨hstop, hnc⟩ := level_of_mark hg (.inr hcc)
  have hsize := Feed.size_lt_of_advance hkop ha₂
  obtain ⟨n, hn⟩ := Nat.exists_eq_add_one.2 (show 0 < f₂.size by omega)
  obtain ⟨left', hokl, hsl⟩ := hleft f₁ f₂ hl (isChar_opening_of_level_pos hg hlevel)
  obtain ⟨right', hokr, hsr⟩ := hright f₃ f₄ hr hnc
  have hlinks : g.linksWithin (primary (g.expressionWithin k)) 0 (f₂.size + 1) ⟨f₂, d + 1⟩ =
      .ok [⟨f₂.current, g.level f₂.current, right'⟩] ⟨f₄, d + 1⟩ := by
    rw [hn]
    exact linksWithin_ok (by omega) ha₂ hokr (linksWithin_stop hstop)
  have hexpr : g.expressionWithin (k + 1) ⟨f₁, d⟩ =
      .ok (Chain.join left' f₂.current right') ⟨f₄, d⟩ := by
    rw [expressionWithin_succ]
    refine nested_ok ?_
    rw [bind_ok hokl, operators_ok (p := ⟨f₂, d + 1⟩) hlinks]
    rfl
  rw [primary_of_opening hco, parenthesized_ok ha hexpr hcc ha₄]
  exact ⟨_, rfl, by simp [Chain.join, Node.same, htext, hsl, hsr]⟩

theorem readsOperand_call {callee : String} (hn : IsName callee) {args : List Node}
    (has : ∀ a ∈ args, g.IsExpression a) {k d : Nat}
    (hreads : ∀ a ∈ args, Reads (g.expressionWithin k) d a) (start : Position) :
    g.ReadsOperand k d (.call callee args start) := by
  intro f f' hf _
  obtain ⟨hname, -, f₁, ha, hf₁⟩ := hf.head
  obtain ⟨hopening, -, f₂, ha₁, hf₂⟩ := hf₁.head
  obtain ⟨f₃, hargs, hf₃⟩ := hf₂.split
  obtain ⟨hclosing, -, f₄, ha₃, hf₄⟩ := hf₃.head
  cases hf₄.eq_of_nil
  have hco : f₁.current.isChar "(" = true := Token.isChar_of_unplaced hopening (by decide)
  have hcc : f₃.current.isChar ")" = true := Token.isChar_of_unplaced hclosing (by decide)
  rw [hn.token] at hname
  have htext : f.current.text = callee := congrArg Token.text hname
  obtain ⟨args', hok, hs⟩ := arguments_spelled has hreads hargs hcc
  rw [primary_of_identifier (congrArg Token.kind hname), identifier_call ha hco ha₁ hok ha₃]
  exact ⟨_, rfl, by simp [Node.same, htext, hs]⟩

/-- A printed expression is read as an operand, with a level of nesting for each of its levels. -/
theorem IsExpression.readsOperand (hg : g.precedence.Excludes ['(', ')', ',']) {n : Node}
    (h : g.IsExpression n) {k d : Nat} (hk : n.height ≤ k + 1) : g.ReadsOperand k d n := by
  induction h generalizing k d with
  | number hv => exact readsOperand_number hv _ k d
  | var hn => exact readsOperand_var hn _ k d
  | @binary operator left right start ho _ _ ihl ihr =>
    have hpos := left.height_pos
    simp only [Node.height] at hk
    obtain ⟨k, rfl⟩ := Nat.exists_eq_add_one.2 (show 0 < k by omega)
    exact readsOperand_binary hg ho (ihl (by omega)) (ihr (by omega)) start
  | @call callee args start hn has ih =>
    refine readsOperand_call hn has (fun a ha => ?_) start
    have hle := Node.height_le_heightAmong ha
    have hpos := a.height_pos
    simp only [Node.height] at hk
    obtain ⟨k, rfl⟩ := Nat.exists_eq_add_one.2 (show 0 < k by omega)
    exact (ih a ha (by omega)).reads hg

theorem IsExpression.expression_ok (hg : g.precedence.Excludes ['(', ')', ',']) {n : Node}
    (h : g.IsExpression n) (hm : (n.height : Int) ≤ g.maxDepth) {f f' : Feed}
    (hf : f.Spells n.words f') (hnext : f'.current.isChar "(" = false)
    (hl : g.level f'.current < 0) :
    ∃ n', g.expression ⟨f, 0⟩ = .ok n' ⟨f', 0⟩ ∧ n.same n' = true := by
  have hpos := n.height_pos
  have hle : n.height ≤ g.room 0 := by
    simp only [room]
    omega
  obtain ⟨k, hk⟩ := Nat.exists_eq_add_one.2 (show 0 < g.room 0 by omega)
  obtain ⟨n', hok, hs⟩ := h.readsOperand hg (hk ▸ hle) (d := 1) f f' hf hnext
  refine ⟨n', ?_, hs⟩
  simp only [expression, hk]
  exact expressionWithin_of_primary hok hl

theorem texts_of_spelled {params : List String} (h : ∀ p ∈ params, IsName p) {u : List Token}
    (hu : u.map Token.unplaced = (params.map String.toList).map (Token.ofLexeme {})) :
    (∀ t ∈ u, t.kind = .identifier) ∧ u.map (·.text) = params := by
  induction params generalizing u with
  | nil =>
    cases List.map_eq_nil_iff.1 hu
    simp
  | cons p params ih =>
    obtain ⟨hp, hps⟩ := List.forall_mem_cons.1 h
    obtain ⟨t, u, rfl, ht, hu⟩ := List.map_eq_cons_iff.1 hu
    obtain ⟨hk, htexts⟩ := ih hps hu
    rw [hp.token] at ht
    have hkind : t.kind = .identifier := congrArg Token.kind ht
    have htext : t.text = p := congrArg Token.text ht
    exact ⟨List.forall_mem_cons.2 ⟨hkind, hk⟩, by rw [List.map_cons, htext, htexts]⟩

theorem prototype_spelled {name : String} {params : List String} {start : Position}
    (hn : IsName name) (hps : ∀ p ∈ params, IsName p) {f f' : Feed} {d : Nat}
    (hf : f.Spells (Node.prototype name params start).words f') :
    prototype ⟨f, d⟩ = .ok (.prototype name params f.current.start) ⟨f', d⟩ := by
  obtain ⟨u, hp, hu⟩ := hf
  simp only [Node.words, List.map_cons, List.map_append, List.map_nil] at hu
  obtain ⟨t, u, rfl, ht, hu⟩ := List.map_eq_cons_iff.1 hu
  obtain ⟨opening, u, rfl, ho, hu⟩ := List.map_eq_cons_iff.1 hu
  obtain ⟨ps, u, rfl, hps₁, hu⟩ := List.map_eq_append_iff.1 hu
  obtain ⟨closing, u, rfl, hc, hu⟩ := List.map_eq_cons_iff.1 hu
  cases List.map_eq_nil_iff.1 hu
  rw [hn.token] at ht
  obtain ⟨hkinds, htexts⟩ := texts_of_spelled hps hps₁
  have hkind : t.kind = .identifier := congrArg Token.kind ht
  have htext : t.text = name := congrArg Token.text ht
  have hok := prototype_passed (d := d) hkind (Token.isChar_of_unplaced ho (by decide)) hkinds
    (Token.isChar_of_unplaced hc (by decide)) hp
  obtain ⟨rfl, -⟩ := hp.head
  rw [hok, htext, htexts]

theorem IsConstruct.rule_ok (hg : g.precedence.Excludes ['(', ')', ',']) {n : Node}
    (h : g.IsConstruct n) {f f' : Feed} (hf : f.Spells n.constructWords f')
    (hnext : f'.current.isChar "(" = false) (hl : g.level f'.current < 0) :
    f.current.stage = .construct n.constructKind ∧
      ∃ n', g.rule n.constructKind ⟨f, 0⟩ = .ok n' ⟨f', 0⟩ ∧ n.same n' = true := by
  cases h with
  | @prototype name params start hn hps =>
    obtain ⟨ht, -, f₁, ha, hf₁⟩ := hf.head
    have hkind : f.current.kind = .external := congrArg Token.kind ht
    refine ⟨Token.stage_of_unplaced ht rfl, _,
      external_ok hkind ha (prototype_spelled hn hps hf₁), ?_⟩
    simp [Node.same]
  | @definition name params body start start' hn hps hb hm =>
    have hanon := isAnonymous_of_isName hn params start
    simp only [Node.constructWords, Node.isPrototype, Node.words, hanon, Node.constructKind,
      Bool.false_eq_true, if_false] at hf ⊢
    obtain ⟨ht, -, f₁, ha, hf₁⟩ := hf.head
    obtain ⟨f₂, hproto, hbody⟩ := hf₁.split
    have hkind : f.current.kind = .define := congrArg Token.kind ht
    have hproto : f₁.Spells (Node.prototype name params start).words f₂ := hproto
    obtain ⟨body', hok, hs⟩ := hb.expression_ok hg hm hbody hnext hl
    refine ⟨Token.stage_of_unplaced ht (by decide), _,
      definition_ok hkind ha (prototype_spelled hn hps hproto) hok, ?_⟩
    simp [Node.same, hs]
  | @anonymous body start start' hb hm =>
    have hf : f.Spells body.words f' := hf
    obtain ⟨l, ls, hwords, hstage, -⟩ := hb.words_head
    obtain ⟨body', hok, hs⟩ := hb.expression_ok hg hm hf hnext hl
    rw [hwords] at hf
    refine ⟨Token.stage_of_unplaced hf.head.1 hstage, _, standalone_ok hok, ?_⟩
    simp [Node.same, hs]

theorem IsConstruct.words_ne_nil {n : Node} (h : g.IsConstruct n) : n.constructWords ≠ [] := by
  cases h with
  | prototype => simp [Node.constructWords, Node.isPrototype]
  | @definition name params body start start' hn =>
    simp [Node.constructWords, Node.isPrototype, Node.words, isAnonymous_of_isName hn]
  | @anonymous body start start' hb =>
    obtain ⟨l, ls, hwords, -⟩ := hb.words_head
    intro hnil
    exact List.cons_ne_nil l ls (hwords ▸ hnil)

theorem runWithin_construct {f f₁ : Feed} {n : Nat} {kind : ConstructKind} {node : Node}
    (hs : f.current.stage = .construct kind) (hr : g.rule kind ⟨f, 0⟩ = .ok node ⟨f₁, 0⟩) :
    g.runWithin (n + 1) ⟨f, 0⟩ =
      Run.after (.outcome ⟨kind, .ok node⟩ ⟨f₁, 0⟩) (g.runWithin n ⟨f₁, 0⟩) := by
  have hc : g.construct kind ⟨f, 0⟩ = .ok ⟨kind, .ok node⟩ ⟨f₁, 0⟩ := by
    simp only [construct, bind, EStateM.bind, attempt, hr]
    rfl
  simp only [runWithin, hs, hc]

theorem runWithin_separator {f f₁ : Feed} {n : Nat} (hs : f.current.stage = .separator)
    (ha : f.advance = .ok () f₁) :
    g.runWithin (n + 1) ⟨f, 0⟩ =
      Run.after (.separator ⟨f, 0⟩) (g.runWithin n ⟨f₁, 0⟩) := by
  simp only [runWithin, hs, Parser.advance, ha]

theorem runWithin_finished {f : Feed} {n : Nat} (hs : f.current.stage = .finished) :
    g.runWithin (n + 1) ⟨f, 0⟩ = ⟨[], none, ⟨f, 0⟩⟩ := by
  simp only [runWithin, hs]

end Grammar

theorem Feed.Delivers.spells {f : Feed} {w v : List Token} {ls : List (List Char)}
    (h : f.Delivers w) (hm : w.map Token.unplaced = ls.map (Token.ofLexeme {}) ++ v)
    (hv : v ≠ []) :
    ∃ f₁ w₁, f.Spells ls f₁ ∧ f₁.Delivers w₁ ∧ w₁.map Token.unplaced = v := by
  obtain ⟨u, w₁, rfl, hu, hw₁⟩ := List.map_eq_append_iff.1 hm
  have hne : w₁ ≠ [] := by
    intro hnil
    subst hnil
    exact hv hw₁.symm
  obtain ⟨f₁, hp, hd⟩ := h.passes hne
  exact ⟨f₁, w₁, ⟨u, hp, hu⟩, hd, hw₁⟩

/-- Each tree of a program comes back, as the one outcome of its construct. -/
def Run.Restores (run : Run) (nodes : List Node) : Prop :=
  run.fault = none ∧ run.final.feed.current.kind = .endOfInput ∧ ∃ parsed,
    Event.outcomes run.events =
      nodes.zipWith (fun n n' => ⟨n.constructKind, .ok n'⟩) parsed ∧
    Node.sameAll nodes parsed = true

theorem Run.Restores.after_outcome {run : Run} {nodes : List Node} (h : run.Restores nodes)
    {n n' : Node} (hs : n.same n' = true) (p : Parser) :
    (run.after (.outcome ⟨n.constructKind, .ok n'⟩ p)).Restores (n :: nodes) := by
  obtain ⟨hf, hk, parsed, ho, hss⟩ := h
  refine ⟨hf, hk, n' :: parsed, ?_, ?_⟩
  · rw [List.zipWith_cons_cons, ← ho]
    rfl
  · simp only [Node.sameAll, hs, hss, Bool.and_self]

theorem Run.Restores.after_separator {run : Run} {nodes : List Node} (h : run.Restores nodes)
    (p : Parser) : (run.after (.separator p)).Restores nodes := h

namespace Grammar

variable {g : Grammar}

theorem bareTokens_append (ls ls' : List (List Char)) :
    bareTokens (ls ++ ls') = ls.map (Token.ofLexeme {}) ++ bareTokens ls' := by
  simp [bareTokens]

theorem bareTokens_ne_nil (ls : List (List Char)) : bareTokens ls ≠ [] := by simp [bareTokens]

/-- Where a run goes on behind a construct: the current token does not go on with it, and the rest
of the run restores the trees that are left. -/
def Resumes (g : Grammar) (n : Nat) (nodes : List Node) (f : Feed) : Prop :=
  f.current.isChar "(" = false ∧ g.level f.current < 0 ∧ (g.runWithin n ⟨f, 0⟩).Restores nodes

variable {f : Feed} {w : List Token} {n : Nat} {nodes : List Node} {ls : List (List Char)}

theorem level_of_kind {t : Token} (h : t.kind ≠ .character) : g.level t < 0 := by
  have hl := level_pos_or g t
  have hpos : ¬ 0 < g.level t := fun hpos => h (kind_of_level_pos hpos)
  omega

theorem resumes_finished (hw : f.Delivers w) (hm : w.map Token.unplaced = bareTokens [])
    (hn : f.size < n) : g.Resumes n [] f := by
  obtain ⟨n, rfl⟩ := Nat.exists_eq_add_one.2 (show 0 < n by omega)
  obtain ⟨t, w, rfl, ht, -⟩ := List.map_eq_cons_iff.1 hm
  have hk : f.current.kind = .endOfInput := by
    rw [hw.current]
    exact congrArg Token.kind ht
  have hne : f.current.kind ≠ .character := by rw [hk]; decide
  have hs : f.current.stage = .finished := by simp only [Token.stage, hk]
  refine ⟨Token.isChar_of_kind_ne hne, level_of_kind hne, ?_⟩
  rw [runWithin_finished hs]
  exact ⟨rfl, hk, [], rfl, rfl⟩

theorem resumes_separator (hg : g.precedence.Excludes ['(', ')', ',', ';']) (hw : f.Delivers w)
    (hm : w.map Token.unplaced = bareTokens ([';'] :: ls)) (hn : f.size < n)
    (h : ∀ f₁ w₁ m, f₁.Delivers w₁ → w₁.map Token.unplaced = bareTokens ls → f₁.size < m →
      (g.runWithin m ⟨f₁, 0⟩).Restores nodes) : g.Resumes n nodes f := by
  obtain ⟨n, rfl⟩ := Nat.exists_eq_add_one.2 (show 0 < n by omega)
  obtain ⟨t, w₁, rfl, ht, hm₁⟩ := List.map_eq_cons_iff.1 hm
  rw [← hw.current] at ht
  have hc : f.current.isChar ";" = true := Token.isChar_of_unplaced ht (by decide)
  have hk := Token.kind_ne_of_isChar hc
  have hl := level_of_excludes hg (by simp) hc (c := ';') rfl
  obtain ⟨f₁, ha⟩ := hw.advance_ok
  obtain ⟨w₂, hw₂, hd⟩ := hw.tail hk ha
  cases hw₂
  have hsize := Feed.size_lt_of_advance hk ha
  refine ⟨Token.isChar_eq_false hc (by decide), by omega, ?_⟩
  rw [runWithin_separator (Token.stage_of_unplaced ht (by decide)) ha]
  exact (h f₁ _ n hd hm₁ (by omega)).after_separator _

theorem runWithin_construct_restores (hg : g.precedence.Excludes ['(', ')', ','])
    {node : Node} (hnode : g.IsConstruct node) (hw : f.Delivers w)
    (hm : w.map Token.unplaced = bareTokens (node.constructWords ++ ls)) (hn : f.size < n + 1)
    (h : ∀ f₁ w₁, f₁.Delivers w₁ → w₁.map Token.unplaced = bareTokens ls → f₁.size < n →
      g.Resumes n nodes f₁) : (g.runWithin (n + 1) ⟨f, 0⟩).Restores (node :: nodes) := by
  rw [bareTokens_append] at hm
  obtain ⟨f₁, w₁, hf, hw₁, hm₁⟩ := hw.spells hm (bareTokens_ne_nil ls)
  have hsize := hf.size_le
  have hpos := List.length_pos_iff.2 hnode.words_ne_nil
  obtain ⟨hnext, hl, hr⟩ := h f₁ w₁ hw₁ hm₁ (by omega)
  obtain ⟨hstage, n', hok, hs⟩ := hnode.rule_ok hg hf hnext hl
  rw [runWithin_construct hstage hok]
  exact hr.after_outcome hs _

theorem runWithin_restores (hg : g.precedence.Excludes ['(', ')', ',', ';'])
    (h : ∀ n ∈ nodes, g.IsConstruct n) (hw : f.Delivers w)
    (hm : w.map Token.unplaced =
      bareTokens ([[';']].intercalate (nodes.map Node.constructWords)))
    (hn : f.size < n) : (g.runWithin n ⟨f, 0⟩).Restores nodes := by
  have hg' : g.precedence.Excludes ['(', ')', ','] :=
    fun c hc => hg c (List.mem_append_left [';'] hc)
  induction nodes generalizing f w n with
  | nil => exact (resumes_finished hw hm hn).2.2
  | cons node nodes ih =>
    obtain ⟨hnode, hnodes⟩ := List.forall_mem_cons.1 h
    obtain ⟨n, rfl⟩ := Nat.exists_eq_add_one.2 (show 0 < n by omega)
    cases nodes with
    | nil =>
      rw [List.map_singleton, List.intercalate_singleton,
        ← List.append_nil node.constructWords] at hm
      refine runWithin_construct_restores hg' hnode hw hm hn ?_
      intro f₁ w₁ hw₁ hm₁ hn₁
      exact resumes_finished hw₁ hm₁ hn₁
    | cons node' nodes =>
      simp only [List.map_cons, List.intercalate_cons_cons, List.append_assoc] at hm
      refine runWithin_construct_restores hg' hnode hw hm hn ?_
      intro f₁ w₁ hw₁ hm₁ hn₁
      exact resumes_separator hg hw₁ hm₁ hn₁ fun f₂ w₂ m hw₂ hm₂ hn₂ => ih hnodes hw₂ hm₂ hn₂

end Grammar

/-- Printing a program and parsing it again comes to the same program: each construct is one
outcome of its kind, with the same tree. -/
theorem Setup.run_printed (setup : Setup) (g : Grammar) (hg : setup.grammar = .ok g)
    (hx : g.precedence.Excludes ['(', ')', ',', ';']) (nodes : List Node)
    (h : ∀ n ∈ nodes, g.IsConstruct n) :
    ∃ texts run, nodes.mapM Node.constructText = .ok texts ∧
      setup.run (.ofText (";".intercalate texts)) = .ok run ∧ run.Restores nodes := by
  obtain ⟨texts, ht, -, hprints⟩ := prints_program h
  have hd := hprints [] [] breaks_nil divides_nil
  simp only [List.append_nil] at hd
  obtain ⟨f, hp, hw⟩ := parser_ok hg (";".intercalate texts)
  refine ⟨texts, g.run ⟨f, 0⟩, ht, ?_, ?_⟩
  · simp only [run, hp]
    rfl
  · exact Grammar.runWithin_restores hx h hw hd.lex (Nat.lt_succ_self _)

theorem run_printed_sum :
    let setup : Setup := { maxDepth := 2 }
    let g : Grammar := { maxDepth := 2 }
    let one := Double.ofRank false 0x3ff0000000000000
    let sum := Node.binary "+" (.var "x" {}) (.number one {}) {}
    let nodes : List Node := [.prototype "f" ["x"] {},
      .function (.prototype Node.anonymousName [] {}) sum {}]
    setup.grammar = .ok g ∧ g.precedence.Excludes ['(', ')', ',', ';'] ∧
      (∀ n ∈ nodes, g.IsConstruct n) ∧
      ∃ texts run, nodes.mapM Node.constructText = .ok texts ∧
        setup.run (.ofText (";".intercalate texts)) = .ok run ∧ run.Restores nodes := by
  intro setup g one sum nodes
  have hname : IsName "f" := ⟨⟨'f', [], rfl, by decide, by simp⟩, by decide, by decide⟩
  have hparam : IsName "x" := ⟨⟨'x', [], rfl, by decide, by simp⟩, by decide, by decide⟩
  have hplus : g.IsOperator "+" := ⟨⟨'+', rfl, by decide⟩, ⟨1, 1⟩, ⟨1, 2⟩, by decide⟩
  have hlex : lex one.numeral =
      [⟨.number, .number one, ⟨1, 1⟩, "1"⟩, .endOfInput ⟨1, 2⟩] := by decide +kernel
  have hone : IsNumeral one := ⟨_, one, _, hlex, rfl, rfl, by decide +kernel⟩
  have hsum : g.IsExpression sum := .binary hplus (.var hparam) (.number hone)
  have hnodes : ∀ n ∈ nodes, g.IsConstruct n := by
    refine List.forall_mem_cons.2 ⟨.prototype hname (by simpa using hparam), ?_⟩
    refine List.forall_mem_cons.2 ⟨.anonymous hsum (by decide), by simp⟩
  have hg : g.precedence.Excludes ['(', ')', ',', ';'] := by decide
  exact ⟨rfl, hg, hnodes, Setup.run_printed setup g rfl hg nodes hnodes⟩

end Kaleidoscope
