import Kaleidoscope.Proofs.Operators

/-! Chains of operators, read and grouped. `Links` says which operators and operands are read; the
node that comes of them is the tree that splits at its last operator of least level. Climbing from
level to level, with one token of lookahead, comes to the same node. -/

set_option autoImplicit false

namespace Kaleidoscope.Grammar

open Rule

/-- The links that are read from one parser to another: the operators of level `least` or more,
each with what the rule for operands makes of the tokens behind it. -/
inductive Links (g : Grammar) (operand : Rule Node) (least : Int) :
    Parser → List Link → Parser → Prop where
  | stop {p : Parser} : g.level p.feed.current < least → Links g operand least p [] p
  | link {f f₁ : Feed} {d : Nat} {right : Node} {p q : Parser} {links : List Link} :
      least ≤ g.level f.current → f.advance = .ok () f₁ → operand ⟨f₁, d⟩ = .ok right p →
      Links g operand least p links q →
      Links g operand least ⟨f, d⟩ (⟨f.current, g.level f.current, right⟩ :: links) q

/-- Goes on with an operand if the operator behind it is tighter than `level`. -/
def tighten (g : Grammar) (climb : Node → Rule Node) (level : Int) (right : Node) : Rule Node := do
  if level < g.level (← current) then climb right else return right

/-- The precedence-climbing rule: the right operand of an operator takes the tighter operators
behind it first, and the climb goes on with the pair as its left operand. -/
def climbWithin (g : Grammar) (operand : Rule Node) : Nat → Int → Node → Rule Node
  | 0, _, left => return left
  | n + 1, least, left => do
    let operator ← current
    let level := g.level operator
    if level < least then return left
    advance
    let right ← operand
    let right ← tighten g (climbWithin g operand n (level + 1)) level right
    climbWithin g operand n least (Chain.join left operator right)

def climb (g : Grammar) (operand : Rule Node) (least : Int) (left : Node) : Rule Node := do
  climbWithin g operand (← turns) least left

section Chains

variable {g : Grammar} {operand : Rule Node} {least : Int}

theorem kind_ne_of_le_level (hm : 0 ≤ least) {t : Token} (h : least ≤ g.level t) :
    t.kind ≠ .endOfInput := by
  have hpos : 0 < g.level t := by
    have := level_pos_or g t
    omega
  exact kind_ne_of_level_pos hpos

theorem Links.level_of_mem {p q : Parser} {links : List Link}
    (h : g.Links operand least p links q) :
    ∀ l ∈ links, l.level = g.level l.operator ∧ least ≤ l.level := by
  induction h with
  | stop => simp
  | link hl _ _ _ ih => exact List.forall_mem_cons.2 ⟨⟨rfl, hl⟩, ih⟩

theorem Links.stops {p q : Parser} {links : List Link} (h : g.Links operand least p links q) :
    g.level q.feed.current < least := by
  induction h with
  | stop hl => exact hl
  | link _ _ _ _ ih => exact ih

theorem Links.level_head {p q : Parser} {links : List Link} (h : g.Links operand least p links q) :
    ∀ l ∈ links.head?, l.level = g.level p.feed.current := by
  cases h with
  | stop => simp
  | link => simp

theorem Links.depth_eq {d : Nat} (hs : StaysAt d operand) {p q : Parser} {links : List Link}
    (h : g.Links operand least p links q) (hd : p.depth = d) : q.depth = d := by
  induction h with
  | stop => exact hd
  | link _ _ hr _ ih =>
    cases hd
    exact ih (hs _ _ _ hr)

theorem Links.size_le (ho : ∀ p a q, operand p = .ok a q → q.feed.size ≤ p.feed.size)
    {p q : Parser} {links : List Link} (h : g.Links operand least p links q) :
    q.feed.size ≤ p.feed.size := by
  induction h with
  | stop => exact Nat.le_refl _
  | link _ ha hr _ ih =>
    have hs := Feed.size_le_of_advance ha
    have hs' := ho _ _ _ hr
    simp only at hs' ⊢
    omega

variable (hm : 0 ≤ least) (ho : ∀ p a q, operand p = .ok a q → q.feed.size ≤ p.feed.size)

include hm ho

theorem size_lt_of_link {f f₁ : Feed} {d : Nat} {right : Node} {p : Parser}
    (hl : least ≤ g.level f.current) (ha : f.advance = .ok () f₁)
    (hr : operand ⟨f₁, d⟩ = .ok right p) : p.feed.size < f.size := by
  have hs := Feed.size_lt_of_advance (kind_ne_of_le_level hm hl) ha
  have hs' := ho _ _ _ hr
  simp only at hs'
  omega

theorem Links.linksWithin_ok {p q : Parser} {links : List Link}
    (h : g.Links operand least p links q) {n : Nat} (hn : p.feed.size < n) :
    g.linksWithin operand least n p = .ok links q := by
  induction h generalizing n with
  | stop hl =>
    obtain ⟨n, rfl⟩ := Nat.exists_eq_add_one.2 (show 0 < n by omega)
    exact linksWithin_stop hl
  | @link f f₁ d right p q links hl ha hr _ ih =>
    obtain ⟨n, rfl⟩ := Nat.exists_eq_add_one.2 (show 0 < n by omega)
    have hs := size_lt_of_link hm ho hl ha hr
    simp only at hn
    rw [linksWithin_link hl ha, bind_ok hr, bind_ok (ih (by omega))]
    rfl

theorem links_of_linksWithin {n : Nat} {p q : Parser} {links : List Link}
    (hn : p.feed.size < n) (h : g.linksWithin operand least n p = .ok links q) :
    g.Links operand least p links q := by
  induction n generalizing p links with
  | zero => omega
  | succ n ih =>
    obtain ⟨f, d⟩ := p
    by_cases hl : g.level f.current < least
    · rw [linksWithin_stop hl] at h
      cases h
      exact .stop hl
    · have hl' : least ≤ g.level f.current := by omega
      cases ha : f.advance with
      | error e f₁ =>
        simp only [linksWithin, current_bind, hl, if_false, bind_error (advance_error ha)] at h
        cases h
      | ok _ f₁ =>
        rw [linksWithin_link hl' ha] at h
        obtain ⟨right, p₂, hr, h⟩ := bind_eq_ok h
        obtain ⟨ls, p₃, hls, h⟩ := bind_eq_ok h
        cases h
        have hs := size_lt_of_link hm ho hl' ha hr
        simp only at hn
        exact .link hl' ha hr (ih (by omega) hls)

theorem linksWithin_turns {n n' : Nat} {p : Parser} (hn : p.feed.size < n)
    (hn' : p.feed.size < n') :
    g.linksWithin operand least n p = g.linksWithin operand least n' p := by
  induction n generalizing n' p with
  | zero => omega
  | succ n ih =>
    obtain ⟨n', rfl⟩ := Nat.exists_eq_add_one.2 (show 0 < n' by omega)
    obtain ⟨f, d⟩ := p
    by_cases hl : g.level f.current < least
    · rw [linksWithin_stop hl, linksWithin_stop hl]
    · have hl' : least ≤ g.level f.current := by omega
      cases ha : f.advance with
      | error e f₁ =>
        simp only [linksWithin, current_bind, hl, if_false, bind_error (advance_error ha)]
      | ok _ f₁ =>
        rw [linksWithin_link hl' ha, linksWithin_link hl' ha]
        refine bind_congr fun right p₂ hr => ?_
        have hs := size_lt_of_link hm ho hl' ha hr
        simp only at hn hn'
        exact bind_of_eq (ih (by omega) (by omega))

end Chains

def links (g : Grammar) (operand : Rule Node) (least : Int) : Rule (List Link) := do
  g.linksWithin operand least (← turns)

section Climbing

variable {g : Grammar} {operand : Rule Node}

theorem links_stop {least : Int} {p : Parser} (h : g.level p.feed.current < least) :
    g.links operand least p = .ok [] p := linksWithin_stop h

theorem links_fault {least : Int} {f f₁ : Feed} {d : Nat} {e : Fault}
    (h : least ≤ g.level f.current) (ha : f.advance = .error e f₁) :
    g.links operand least ⟨f, d⟩ = .error (.fault e) ⟨f₁, d⟩ := by
  have hl : ¬ g.level f.current < least := by omega
  simp only [links, turns_bind, linksWithin, current_bind, hl, if_false,
    bind_error (advance_error ha)]

variable (ho : ∀ p a q, operand p = .ok a q → q.feed.size ≤ p.feed.size)

include ho

theorem links_link {least : Int} (hm : 0 ≤ least) {f f₁ : Feed} {d : Nat}
    (h : least ≤ g.level f.current) (ha : f.advance = .ok () f₁) :
    g.links operand least ⟨f, d⟩ = (do
      let right ← operand
      let links ← g.links operand least
      return (⟨f.current, g.level f.current, right⟩ : Link) :: links) ⟨f₁, d⟩ := by
  simp only [links, turns_bind]
  rw [linksWithin_link h ha]
  refine bind_congr fun right p₂ hr => ?_
  have hs := size_lt_of_link hm ho h ha hr
  exact bind_of_eq (linksWithin_turns hm ho hs (Nat.lt_succ_self _))

theorem links_of_links {least : Int} (hm : 0 ≤ least) {p q : Parser} {ls : List Link}
    (h : g.links operand least p = .ok ls q) : g.Links operand least p ls q :=
  links_of_linksWithin hm ho (Nat.lt_succ_self _) h

theorem links_split {least level : Int} (hm : 0 ≤ least) (hl : least ≤ level) (p : Parser) :
    g.links operand least p = (do
      let tight ← g.links operand level
      let rest ← g.links operand least
      return tight ++ rest) p := by
  induction hn : p.feed.size using Nat.strongRecOn generalizing p with
  | ind n ih =>
    obtain ⟨f, d⟩ := p
    subst hn
    by_cases hlv : g.level f.current < level
    · rw [bind_ok (links_stop hlv)]
      simp
    · have hle : level ≤ g.level f.current := by omega
      cases ha : f.advance with
      | error e f₁ =>
        rw [links_fault (by omega) ha, bind_error (links_fault hle ha)]
      | ok _ f₁ =>
        have hlevel := links_link (g := g) (d := d) ho (Int.le_trans hm hl) hle ha
        rw [links_link ho hm (by omega) ha, bind_of_eq hlevel]
        simp only [bind_assoc, pure_bind]
        refine bind_congr fun right p₂ hr => ?_
        have hs := size_lt_of_link (Int.le_trans hm hl) ho hle ha hr
        rw [bind_of_eq (ih p₂.feed.size hs p₂ rfl)]
        simp only [bind_assoc, pure_bind, List.cons_append]

/-- Climbing comes to the same as reading the chain first and grouping it then. -/
theorem climbWithin_eq {n : Nat} {least : Int} (hm : 0 ≤ least) {left : Node} {p : Parser}
    (hn : p.feed.size < n) :
    g.climbWithin operand n least left p = (do
      let links ← g.links operand least
      return Chain.tree left links) p := by
  induction n generalizing least left p with
  | zero => omega
  | succ n ih =>
    obtain ⟨f, d⟩ := p
    by_cases hl : g.level f.current < least
    · rw [bind_ok (links_stop hl)]
      simp only [climbWithin, current_bind, hl, if_true]
      rfl
    · have hle : least ≤ g.level f.current := by omega
      cases ha : f.advance with
      | error e f₁ =>
        rw [bind_error (links_fault hle ha)]
        simp only [climbWithin, current_bind, hl, if_false, bind_error (advance_error ha)]
      | ok _ f₁ =>
        rw [bind_of_eq (links_link ho hm hle ha)]
        simp only [climbWithin, current_bind, hl, if_false, advance_bind ha, bind_assoc,
          pure_bind]
        refine bind_congr fun right p₂ hr => ?_
        have hs := size_lt_of_link hm ho hle ha hr
        simp only at hn
        have htight : tighten g (g.climbWithin operand n (g.level f.current + 1))
            (g.level f.current) right p₂ = (do
              let tight ← g.links operand (g.level f.current + 1)
              return Chain.tree right tight) p₂ := by
          simp only [tighten, current_bind]
          split
          · exact ih (by omega) (by omega)
          · rw [bind_ok (links_stop (by omega))]
            rfl
        -- the other side reads the same links in one go: first the tighter ones, then the rest
        have hnext : least ≤ g.level f.current + 1 := by omega
        rw [bind_of_eq htight, bind_of_eq (links_split ho hm hnext p₂)]
        simp only [bind_assoc, pure_bind]
        refine bind_congr fun tight p₃ ht => ?_
        have ht := links_of_links ho (by omega) ht
        rw [ih hm (by have := ht.size_le ho; omega)]
        refine bind_congr fun rest p₄ hrest => ?_
        have hrest := links_of_links ho hm hrest
        rw [Chain.tree_cons_append left _ tight rest]
        · intro k hk
          have := (ht.level_of_mem k hk).2
          simp only
          omega
        · intro k hk
          have := hrest.level_head k hk
          have := ht.stops
          simp only
          omega

omit ho in
theorem operators_bind {least : Int} {left : Node} {p : Parser} :
    g.operators operand least left p = (do
      let links ← g.links operand least
      return Chain.tree left links) p := rfl

theorem climb_eq_operators {least : Int} (hm : 0 ≤ least) (left : Node) (p : Parser) :
    g.climb operand least left p = g.operators operand least left p := by
  rw [operators_bind]
  exact climbWithin_eq ho hm (Nat.lt_succ_self _)

theorem operators_eq_ok {least : Int} (hm : 0 ≤ least) {left node : Node} {p q : Parser} :
    g.operators operand least left p = .ok node q ↔
      ∃ links, g.Links operand least p links q ∧ Chain.Splits left links node := by
  rw [operators_bind]
  constructor
  · intro h
    obtain ⟨links, q₁, hl, h⟩ := bind_eq_ok h
    cases h
    exact ⟨links, links_of_links ho hm hl, Chain.splits_tree left links⟩
  · intro h
    obtain ⟨links, hl, hs⟩ := h
    have hok : g.links operand least p = .ok links q :=
      hl.linksWithin_ok hm ho (Nat.lt_succ_self _)
    rw [bind_ok hok, Chain.splits_iff.1 hs]
    rfl

end Climbing

section Expressions

variable {g : Grammar}

theorem size_le_of_primary (p : Parser) (a : Node) (q : Parser)
    (h : primary g.expression p = .ok a q) : q.feed.size ≤ p.feed.size := by
  obtain ⟨f, d⟩ := p
  have he := ends_primary (g := g) (f := f) (d := d) fun _ => ends_expression
  rw [h] at he
  cases he with
  | ok hp _ =>
    have := hp.size_le
    simp only
    omega

theorem Links.character {least : Int} (hm : 0 ≤ least) {operand : Rule Node} {p q : Parser}
    {links : List Link} (h : g.Links operand least p links q) :
    ∀ l ∈ links, l.operator.kind = .character ∧ l.level = g.level l.operator ∧
      0 < l.level ∧ least ≤ l.level := by
  intro l hl
  obtain ⟨he, hle⟩ := h.level_of_mem l hl
  have hpos : 0 < g.level l.operator := by
    have := level_pos_or g l.operator
    omega
  exact ⟨kind_of_level_pos hpos, he, by omega, hle⟩

theorem expression_eq_ok {f : Feed} {d : Nat} {node : Node} {q : Parser} :
    g.expression ⟨f, d⟩ = .ok node q ↔ d < g.maxDepth ∧ q.depth = d ∧
      ∃ first p₁ links, primary g.expression ⟨f, d + 1⟩ = .ok first p₁ ∧
        g.Links (primary g.expression) 0 p₁ links ⟨q.feed, d + 1⟩ ∧
        Chain.Splits first links node := by
  rw [expression_eq]
  split
  · next h =>
    constructor
    · intro h
      cases h
    · intro h
      obtain ⟨hd, _⟩ := h
      omega
  · next h =>
    constructor
    · intro hn
      cases hr : (do
        let left ← primary g.expression
        g.operators (primary g.expression) 0 left) (⟨f, d + 1⟩ : Parser) with
      | error e q₁ => simp only [nested, hr] at hn; cases hn
      | ok a q₁ =>
        simp only [nested, hr] at hn
        cases hn
        obtain ⟨first, p₁, hf, hr⟩ := bind_eq_ok hr
        obtain ⟨links, hl, hs⟩ := (operators_eq_ok size_le_of_primary (Int.le_refl 0)).1 hr
        have hd := hl.depth_eq staysAt_primary (staysAt_primary f first p₁ hf)
        obtain ⟨f₁, d₁⟩ := q₁
        cases hd
        exact ⟨by omega, rfl, first, p₁, links, hf, hl, hs⟩
    · intro h
      obtain ⟨_, hq, first, p₁, links, hf, hl, hs⟩ := h
      obtain ⟨f₁, d₁⟩ := q
      cases hq
      refine nested_ok ((bind_ok hf).trans ?_)
      exact (operators_eq_ok size_le_of_primary (Int.le_refl 0)).2 ⟨links, hl, hs⟩

/-- What is read behind a left operand is a chain of operators of the level that is asked for,
up to the first token that is none, and the node is the one that splits at the last operator of
least level. Climbing comes to the same node, and a whole expression is such a chain over its
first operand. -/
theorem operators_iff_splits (g : Grammar) (least : Int) (hm : 0 ≤ least) (left : Node)
    (p : Parser) :
    (∀ node q, g.operators (primary g.expression) least left p = .ok node q ↔
      ∃ links, g.Links (primary g.expression) least p links q ∧ Chain.Splits left links node) ∧
    (∀ links q, g.Links (primary g.expression) least p links q →
      g.level q.feed.current < least ∧
      ∀ l ∈ links, l.operator.kind = .character ∧ l.level = g.level l.operator ∧
        0 < l.level ∧ least ≤ l.level) ∧
    g.climb (primary g.expression) least left p =
      g.operators (primary g.expression) least left p ∧
    (∀ node q, g.expression p = .ok node q ↔ p.depth < g.maxDepth ∧ q.depth = p.depth ∧
      ∃ first p₁ links, primary g.expression ⟨p.feed, p.depth + 1⟩ = .ok first p₁ ∧
        g.Links (primary g.expression) 0 p₁ links ⟨q.feed, p.depth + 1⟩ ∧
        Chain.Splits first links node) ∧
    (∀ level links node, (∀ l ∈ links, l.level = level) → Chain.Splits left links node →
      node = links.foldl (fun left l => Chain.join left l.operator l.operand) left) ∧
    ∀ before l tight rest right node, (∀ k ∈ tight, l.level < k.level) →
      (∀ k' ∈ rest.head?, ∀ k ∈ tight, k'.level ≤ k.level) →
      Chain.Splits l.operand tight right →
      (Chain.Splits left (before ++ l :: (tight ++ rest)) node ↔
        Chain.Splits left (before ++ { l with operand := right } :: rest) node) := by
  refine ⟨fun node q => operators_eq_ok size_le_of_primary hm, fun links q hl => ?_,
    climb_eq_operators size_le_of_primary hm left p, fun node q => expression_eq_ok, ?_, ?_⟩
  · exact ⟨hl.stops, hl.character hm⟩
  · intro level links node hlevel hs
    rw [Chain.splits_iff.1 hs, Chain.tree_of_level_eq left hlevel]
  · intro before l tight rest right node ht hr hs
    rw [Chain.splits_iff, Chain.splits_iff, Chain.splits_iff.1 hs,
      Chain.tree_tight left before l ht hr]

theorem sum_splits_before_product :
    let g : Grammar := {}
    let name (s : String) : Token := { kind := .identifier, payload := .text s, text := s }
    let char (s : String) : Token := { kind := .character, payload := .text s, text := s }
    let feed : Feed := ⟨char "+", 1, [.token (name "b") 2, .token (char "*") 3,
      .token (name "c") 4], ⟨{}, 4⟩⟩
    (0 : Int) ≤ 0 ∧ ∃ q links, g.Links (primary g.expression) 0 ⟨feed, 1⟩ links q ∧
      Chain.Splits (.var "a" {}) links
        (.binary "+" (.var "a" {}) (.binary "*" (.var "b" {}) (.var "c" {}) {}) {}) := by
  intro g name char feed
  have h := operators_iff_splits g 0 (Int.le_refl 0) (.var "a" {}) ⟨feed, 1⟩
  exact ⟨Int.le_refl 0, _, (h.1 _ _).1 rfl⟩

end Expressions

end Kaleidoscope.Grammar
