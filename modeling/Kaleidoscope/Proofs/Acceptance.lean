import Kaleidoscope.Proofs.Derivation

/-! The parser accepts what the grammar derives and nothing else. What is derived is passed to its
last token, as long as the parentheses and the comma are no operators and the next token does not
carry the derivation on. -/

set_option autoImplicit false

namespace Kaleidoscope

/-- None of the characters is an operator. -/
def Precedence.Excludes (p : Precedence) (cs : List Char) : Prop := ∀ c ∈ cs, p.entry c ≤ 0

instance (p : Precedence) (cs : List Char) : Decidable (p.Excludes cs) :=
  List.decidableBAll _ cs

theorem OpenName.right {u v : List Token} {t : Token} (h : OpenName (u ++ v) t) :
    OpenName v t := by
  intro x hx hk
  exact h x (by simp [List.getLast?_append, hx]) hk

theorem openName_of_isChar {u : List Token} {t : Token} (h : t.isChar "(" = false) :
    OpenName u t := fun _ _ _ => h

namespace Grammar

open Rule

variable {g : Grammar}

theorem level_of_isChar {t : Token} {s : String} {c : Char} (h : t.isChar s = true)
    (hs : s.toList = [c]) : g.level t = g.precedence.level c := by
  simp only [level, Token.kind_of_isChar h, Token.payload_of_isChar h, hs]

theorem level_of_excludes {t : Token} {s : String} {c : Char} {cs : List Char}
    (hg : g.precedence.Excludes cs) (hc : c ∈ cs) (h : t.isChar s = true)
    (hs : s.toList = [c]) : g.level t = -1 := by
  rw [level_of_isChar h hs, Precedence.level, if_pos (hg c hc)]

/-- The rule for a symbol runs from one feed to another, with room for `k` levels. -/
def Accepts (g : Grammar) (k : Nat) : Symbol → Feed → Feed → Prop
  | .expression, f, f' => ∀ d, ∃ n, g.expressionWithin k ⟨f, d⟩ = .ok n ⟨f', d⟩
  | .primary, f, f' => ∀ d, ∃ n, primary (g.expressionWithin k) ⟨f, d⟩ = .ok n ⟨f', d⟩
  | .tail, f, f' => ∀ d n, f.size < n →
      ∃ links, g.linksWithin (primary (g.expressionWithin k)) 0 n ⟨f, d⟩ = .ok links ⟨f', d⟩
  | .arguments, f, f' => ∀ d, ∃ args, arguments (g.expressionWithin k) ⟨f, d⟩ = .ok args ⟨f', d⟩
  | .moreArguments, f, f' => ∀ d n, f.size ≤ n →
      ∃ args, argumentsAfter (g.expressionWithin k) n ⟨f, d⟩ = .ok args ⟨f', d⟩

def Starts : Symbol → List Token → Prop
  | .expression, u | .primary, u => ∃ t v, u = t :: v ∧ t.isChar ")" = false
  | _, _ => True

theorem Derives.starts {s : Symbol} {n : Nat} {u : List Token} (h : g.Derives s n u) :
    Starts s u := by
  induction h with
  | expression _ _ ihu _ =>
    obtain ⟨t, v, rfl, ht⟩ := ihu
    exact ⟨t, _, rfl, ht⟩
  | number hk _ => exact ⟨_, _, rfl, Token.isChar_of_kind_ne (by rw [hk]; decide)⟩
  | «variable» hk => exact ⟨_, _, rfl, Token.isChar_of_kind_ne (by rw [hk]; decide)⟩
  | call hk _ _ _ _ => exact ⟨_, _, rfl, Token.isChar_of_kind_ne (by rw [hk]; decide)⟩
  | parenthesized hc _ _ _ => exact ⟨_, _, rfl, Token.isChar_eq_false hc (by decide)⟩
  | noOperator => trivial
  | operator => trivial
  | noArgument => trivial
  | argument => trivial
  | lastArgument => trivial
  | comma => trivial

theorem isChar_opening_of_level_pos (hg : g.precedence.Excludes ['(', ')', ',']) {t : Token}
    (h : 0 < g.level t) : t.isChar "(" = false := by
  refine Bool.eq_false_iff.2 fun hc => ?_
  rw [level_of_excludes hg (by simp) hc (c := '(') rfl] at h
  omega

theorem openName_of_tail (hg : g.precedence.Excludes ['(', ')', ',']) {n : Nat}
    {u v : List Token} {f f' : Feed} (h : g.Derives .tail n v) (hp : f.Passes v f')
    (ho : OpenName (u ++ v) f'.current) : OpenName u f.current := by
  cases h with
  | noOperator =>
    rw [hp.eq_of_nil] at ho
    simpa using ho
  | operator hl _ _ =>
    obtain ⟨rfl, -⟩ := hp.head
    exact openName_of_isChar (isChar_opening_of_level_pos hg hl)

theorem delimits_of_more (hg : g.precedence.Excludes ['(', ')', ',']) {n : Nat}
    {u v : List Token} {f f' : Feed} (h : g.Derives .moreArguments n v) (hp : f.Passes v f')
    (hl : f'.current.isChar ")" = true) : g.Delimits .expression u f.current := by
  cases h with
  | lastArgument =>
    rw [hp.eq_of_nil] at hl
    have := level_of_excludes hg (by simp) hl (c := ')') rfl
    exact ⟨by omega, openName_of_isChar (Token.isChar_eq_false hl (by decide))⟩
  | comma hc _ _ =>
    obtain ⟨rfl, -⟩ := hp.head
    have := level_of_excludes hg (by simp) hc (c := ',') rfl
    exact ⟨by omega, openName_of_isChar (Token.isChar_eq_false hc (by decide))⟩

/-- Completeness, by induction on the derivation: each rule of the grammar is the way on which the
rule of the parser for the same symbol goes. -/
theorem Derives.accepted (hg : g.precedence.Excludes ['(', ')', ',']) {s : Symbol} {m : Nat}
    {u : List Token} (h : g.Derives s m u) {k : Nat} {f f' : Feed} (hm : m ≤ k)
    (hp : f.Passes u f') (hd : g.Delimits s u f'.current) : g.Accepts k s f f' := by
  induction h generalizing k f f' with
  | @expression m n u v hu hv ihu ihv =>
    obtain ⟨f₁, hpu, hpv⟩ := hp.split
    cases k with
    | zero => omega
    | succ k =>
      intro d
      have ho := openName_of_tail hg hv hpv hd.2
      obtain ⟨left, hleft⟩ := ihu (k := k) (by omega) hpu ho (d + 1)
      obtain ⟨links, hlinks⟩ :=
        ihv (k := k) (by omega) hpv ⟨hd.1, hd.2.right⟩ (d + 1) (f₁.size + 1) (by omega)
      refine ⟨Chain.tree left links, ?_⟩
      rw [expressionWithin_succ]
      refine nested_ok ?_
      rw [bind_ok hleft, operators_ok (p := ⟨f₁, d + 1⟩) hlinks]
  | noOperator =>
    intro d n hn
    obtain ⟨n, rfl⟩ := Nat.exists_eq_add_one.2 (show 0 < n by omega)
    rw [hp.eq_of_nil] at hd ⊢
    have hl : g.level f.current < 0 := by
      have := level_pos_or g f.current
      have := hd.1
      omega
    exact ⟨[], linksWithin_stop hl⟩
  | @operator t m n u v hl hu hv ihu ihv =>
    intro d n hn
    obtain ⟨rfl, hk, f₁, ha, hp₁⟩ := hp.head
    obtain ⟨f₂, hpu, hpv⟩ := hp₁.split
    obtain ⟨n, rfl⟩ := Nat.exists_eq_add_one.2 (show 0 < n by omega)
    have hs := Feed.size_lt_of_advance hk ha
    have hs' := hpu.size_le
    have ho := OpenName.right (u := [f.current]) hd.2
    obtain ⟨right, hright⟩ := ihu (k := k) (by omega) hpu (openName_of_tail hg hv hpv ho) d
    obtain ⟨links, hlinks⟩ := ihv (k := k) (by omega) hpv ⟨hd.1, ho.right⟩ d n (by omega)
    exact ⟨_, linksWithin_ok (by omega) ha hright hlinks⟩
  | number hk hv =>
    intro d
    obtain ⟨rfl, -, f₁, ha, hp₁⟩ := hp.head
    cases hp₁
    rw [primary_of_number hk]
    cases hc : f.current.payload with
    | none => contradiction
    | number v => exact ⟨_, number_ok hc ha⟩
    | text s => exact ⟨_, number_ok_of_text hc ha⟩
  | «variable» hk =>
    intro d
    obtain ⟨rfl, -, f₁, ha, hp₁⟩ := hp.head
    cases hp₁
    rw [primary_of_identifier hk]
    exact ⟨_, identifier_variable ha (hd f.current rfl hk)⟩
  | @call name opening closing n u hk hc hu hl ihu =>
    intro d
    obtain ⟨rfl, -, f₁, ha, hp₁⟩ := hp.head
    obtain ⟨rfl, -, f₂, ha₁, hp₂⟩ := hp₁.head
    obtain ⟨f₃, hpu, hp₃⟩ := hp₂.split
    obtain ⟨rfl, -, f₄, ha₃, hp₄⟩ := hp₃.head
    cases hp₄
    obtain ⟨args, hargs⟩ := ihu hm hpu hl d
    rw [primary_of_identifier hk]
    exact ⟨_, identifier_call ha hc ha₁ hargs ha₃⟩
  | @parenthesized opening closing n u hc hu hl ihu =>
    intro d
    obtain ⟨rfl, -, f₁, ha, hp₁⟩ := hp.head
    obtain ⟨f₂, hpu, hp₂⟩ := hp₁.split
    obtain ⟨rfl, -, f₃, ha₂, hp₃⟩ := hp₂.head
    cases hp₃
    have hr := level_of_excludes hg (by simp) hl (c := ')') rfl
    have ho := Token.isChar_eq_false hl (by decide : ")" ≠ "(")
    obtain ⟨e, he⟩ := ihu hm hpu ⟨by omega, openName_of_isChar ho⟩ d
    rw [primary_of_opening hc]
    exact ⟨_, parenthesized_ok ha he hl ha₂⟩
  | noArgument =>
    intro d
    rw [hp.eq_of_nil] at hd ⊢
    exact ⟨[], arguments_none hd⟩
  | @argument m n u v hu hv ihu ihv =>
    intro d
    obtain ⟨f₁, hpu, hpv⟩ := hp.split
    obtain ⟨t, u', hu', ht⟩ := hu.starts
    have hfirst : f.current.isChar ")" = false := by
      subst hu'
      obtain ⟨rfl, -⟩ := hpu.head
      exact ht
    have hs := hpu.size_le
    obtain ⟨arg, harg⟩ := ihu (k := k) (by omega) hpu (delimits_of_more hg hv hpv hd) d
    obtain ⟨args, hargs⟩ := ihv (k := k) (by omega) hpv hd d f.size (by omega)
    rw [arguments_some hfirst]
    exact ⟨_, argumentsWithin_ok harg hargs⟩
  | lastArgument =>
    intro d n hn
    rw [hp.eq_of_nil] at hd ⊢
    exact ⟨[], argumentsAfter_closing hd⟩
  | @comma t m n u v hc hu hv ihu ihv =>
    intro d n hn
    obtain ⟨rfl, hk, f₁, ha, hp₁⟩ := hp.head
    obtain ⟨f₂, hpu, hpv⟩ := hp₁.split
    have hs := Feed.size_lt_of_advance hk ha
    have hs' := hpu.size_le
    obtain ⟨n, rfl⟩ := Nat.exists_eq_add_one.2 (show 0 < n by omega)
    obtain ⟨arg, harg⟩ := ihu (k := k) (by omega) hpu (delimits_of_more hg hv hpv hd) d
    obtain ⟨args, hargs⟩ := ihv (k := k) (by omega) hpv hd d n (by omega)
    rw [argumentsAfter_comma hc ha]
    exact ⟨_, argumentsWithin_ok harg hargs⟩

theorem prototype_passed {name opening closing : Token} {ps : List Token} {f f' : Feed} {d : Nat}
    (hk : name.kind = .identifier) (hc : opening.isChar "(" = true)
    (hps : ∀ t ∈ ps, t.kind = .identifier) (hl : closing.isChar ")" = true)
    (hp : f.Passes (name :: opening :: (ps ++ [closing])) f') :
    prototype ⟨f, d⟩ = .ok (.prototype name.text (ps.map (·.text)) name.start) ⟨f', d⟩ := by
  obtain ⟨rfl, -, f₁, ha, hp₁⟩ := hp.head
  rw [← List.cons_append] at hp₁
  obtain ⟨f₂, hps₂, hp₂⟩ := hp₁.split
  obtain ⟨rfl, -, -, -, -⟩ := hps₂.head
  obtain ⟨rfl, -, f₃, ha₂, hp₃⟩ := hp₂.head
  cases hp₃
  have hn : f₂.current.kind ≠ .identifier := by rw [Token.kind_of_isChar hl]; decide
  exact prototype_ok hk ha hc (parametersWithin_ok hps (by omega) hps₂ hn) hl ha₂

theorem Derives.expression_ok (hg : g.precedence.Excludes ['(', ')', ',']) {m : Nat}
    {u : List Token} (h : g.Derives .expression m u) {f f' : Feed} (hm : (m : Int) ≤ g.maxDepth)
    (hp : f.Passes u f') (hd : g.Delimits .expression u f'.current) :
    ∃ n, g.expression ⟨f, 0⟩ = .ok n ⟨f', 0⟩ :=
  h.accepted hg (k := g.room 0) (by simp only [room]; omega) hp hd 0

theorem Constructs.accepted (hg : g.precedence.Excludes ['(', ')', ',']) {kind : ConstructKind}
    {u : List Token} (h : g.Constructs kind u) {f f' : Feed} (hp : f.Passes u f')
    (hc : g.Closes kind u f'.current) : ∃ n, g.rule kind ⟨f, 0⟩ = .ok n ⟨f', 0⟩ := by
  cases h with
  | @definition t n u v hd hu hv hm =>
    obtain ⟨rfl, -, f₁, ha, hp₁⟩ := hp.head
    obtain ⟨f₂, hpu, hpv⟩ := hp₁.split
    obtain ⟨hk, ho, hps, hl⟩ := hu
    have hproto := prototype_passed (d := 0) hk ho hps hl hpu
    have hnext := OpenName.right (u := f.current :: _) hc.2
    obtain ⟨body, hbody⟩ := hv.expression_ok hg hm hpv ⟨hc.1, hnext⟩
    exact ⟨_, definition_ok hd ha hproto hbody⟩
  | @external t u hx hu =>
    obtain ⟨rfl, -, f₁, ha, hpu⟩ := hp.head
    obtain ⟨hk, ho, hps, hl⟩ := hu
    have hproto := prototype_passed (d := 0) hk ho hps hl hpu
    exact ⟨_, external_ok hx ha hproto⟩
  | expression hu hm =>
    obtain ⟨body, hbody⟩ := hu.expression_ok hg hm hp hc
    exact ⟨_, standalone_ok hbody⟩

/-- A construct of the kind stands at the beginning, and the token behind it does not carry it
on. -/
def Begins (g : Grammar) (kind : ConstructKind) (w u : List Token) : Prop :=
  ∃ t v, w = u ++ t :: v ∧ g.Constructs kind u ∧ g.Closes kind u t

theorem attempt_ends (g : Grammar) (kind : ConstructKind) {f : Feed} {w : List Token}
    (hw : f.Delivers w) :
    (∃ node u f₁, (g.rule kind).attempt ⟨f, 0⟩ = .ok (.ok node) ⟨f₁, 0⟩ ∧ f.Passes u f₁ ∧
        g.Constructs kind u ∧ g.Closes kind u f₁.current) ∨
      ∃ c u f₁, (g.rule kind).attempt ⟨f, 0⟩ =
        .ok (.error (.atToken f₁.current c)) ⟨f₁, 0⟩ ∧ f.Passes u f₁ := by
  have h := ends_rule (g := g) (f := f) kind
  generalize hr : g.rule kind ⟨f, 0⟩ = r at h
  cases h with
  | ok hp hc => exact .inl ⟨_, _, _, by rw [attempt, hr], hp, hc⟩
  | complaint hp => exact .inr ⟨_, _, _, by rw [attempt, hr], hp⟩
  | fault hp ha =>
    obtain ⟨v, -, hv⟩ := hw.after hp
    obtain ⟨f₂, ha'⟩ := hv.advance_ok
    cases ha.symm.trans ha'

theorem begins_of_passes {kind : ConstructKind} {f f₁ : Feed} {w u : List Token}
    (hw : f.Delivers w) (hp : f.Passes u f₁) (hu : g.Constructs kind u)
    (hc : g.Closes kind u f₁.current) :
    g.Begins kind w u ∧ ∃ v, w = u ++ v ∧ f₁.Delivers v := by
  obtain ⟨v, rfl, hv⟩ := hw.after hp
  refine ⟨?_, v, rfl, hv⟩
  cases v with
  | nil => exact absurd rfl hv.ne_nil
  | cons t v =>
    rw [hv.current] at hc
    exact ⟨t, v, rfl, hu, hc⟩

theorem Begins.passes (hg : g.precedence.Excludes ['(', ')', ',']) {kind : ConstructKind}
    {f : Feed} {w u : List Token} (h : g.Begins kind w u) (hw : f.Delivers w) :
    ∃ node f₁, (g.rule kind).attempt ⟨f, 0⟩ = .ok (.ok node) ⟨f₁, 0⟩ ∧ f.Passes u f₁ := by
  obtain ⟨t, v, rfl, hu, hc⟩ := h
  obtain ⟨f₁, hp, hv⟩ := hw.passes (List.cons_ne_nil t v)
  rw [← hv.current] at hc
  obtain ⟨node, hr⟩ := hu.accepted hg hp hc
  exact ⟨node, f₁, by rw [attempt, hr], hp⟩

/-- The parser accepts exactly its grammar: an attempt comes to a node when a construct begins the
tokens that are delivered, and to a complaint when none does. No other construct begins them, and
a successful attempt passes that one and stands on the token behind it. -/
theorem attempt_iff_begins (g : Grammar) (hg : g.precedence.Excludes ['(', ')', ','])
    (kind : ConstructKind) (p : Parser) (hd : p.depth = 0) (w : List Token)
    (hw : p.feed.Delivers w) :
    ((∃ node q, (g.rule kind).attempt p = .ok (.ok node) q) ↔ ∃ u, g.Begins kind w u) ∧
    ((∃ d q, (g.rule kind).attempt p = .ok (.error d) q) ↔ ¬ ∃ u, g.Begins kind w u) ∧
    (∀ u₁ u₂, g.Begins kind w u₁ → g.Begins kind w u₂ → u₁ = u₂) ∧
    ∀ node q u, (g.rule kind).attempt p = .ok (.ok node) q → g.Begins kind w u →
      ∃ t v, w = u ++ t :: v ∧ q.feed.current = t ∧ q.feed.Delivers (t :: v) := by
  obtain ⟨f, d⟩ := p
  simp only at hd hw
  subst hd
  have hpass : ∀ u, g.Begins kind w u → ∃ node f₁,
      (g.rule kind).attempt ⟨f, 0⟩ = .ok (.ok node) ⟨f₁, 0⟩ ∧ f.Passes u f₁ :=
    fun u hu => hu.passes hg hw
  refine ⟨⟨?_, ?_⟩, ⟨?_, ?_⟩, ?_, ?_⟩
  · intro h
    obtain ⟨node, q, ha⟩ := h
    obtain ⟨_, u, f₁, -, hp, hu, hc⟩ | ⟨c, u, f₁, ha', -⟩ := attempt_ends g kind hw
    · exact ⟨u, (begins_of_passes hw hp hu hc).1⟩
    · cases ha.symm.trans ha'
  · intro h
    obtain ⟨u, hu⟩ := h
    obtain ⟨node, f₁, ha, -⟩ := hpass u hu
    exact ⟨node, _, ha⟩
  · intro h h'
    obtain ⟨d, q, ha⟩ := h
    obtain ⟨u, hu⟩ := h'
    obtain ⟨node, f₁, ha', -⟩ := hpass u hu
    cases ha.symm.trans ha'
  · intro hn
    obtain ⟨_, u, f₁, -, hp, hu, hc⟩ | ⟨c, u, f₁, ha, -⟩ := attempt_ends g kind hw
    · exact absurd ⟨u, (begins_of_passes hw hp hu hc).1⟩ hn
    · exact ⟨_, _, ha⟩
  · intro u₁ u₂ h₁ h₂
    obtain ⟨n₁, f₁, ha₁, hp₁⟩ := hpass u₁ h₁
    obtain ⟨n₂, f₂, ha₂, hp₂⟩ := hpass u₂ h₂
    cases ha₁.symm.trans ha₂
    exact hw.eq_of_passes hp₁ hp₂
  · intro node q u ha hu
    obtain ⟨n, f₁, ha', hp⟩ := hpass u hu
    cases ha.symm.trans ha'
    obtain ⟨v, rfl, hv⟩ := hw.after hp
    cases v with
    | nil => exact absurd rfl hv.ne_nil
    | cons t v => exact ⟨t, v, rfl, hv.current, hv⟩

theorem call_begins :
    let g : Grammar := { maxDepth := 2 }
    let name (s : String) : Token := { kind := .identifier, payload := .text s, text := s }
    let char (s : String) : Token := { kind := .character, payload := .text s, text := s }
    let w := [name "f", char "(", name "x", char ")", .endOfInput {}]
    let p : Parser := ⟨⟨name "f", 1, [.token (char "(") 2, .token (name "x") 3,
      .token (char ")") 4], ⟨{}, 4⟩⟩, 0⟩
    g.precedence.Excludes ['(', ')', ','] ∧ p.depth = 0 ∧ p.feed.Delivers w ∧
      ∃ u, g.Begins .expression w u := by
  intro g name char w p
  have hg : g.precedence.Excludes ['(', ')', ','] := by decide
  have hw : p.feed.Delivers w :=
    .token (by decide) rfl <| .token (by decide) rfl <| .token (by decide) rfl <|
      .token (by decide) rfl <| .finished rfl rfl
  exact ⟨hg, rfl, hw, (attempt_iff_begins g hg .expression p rfl w hw).1.1 ⟨_, _, rfl⟩⟩

end Grammar

end Kaleidoscope
