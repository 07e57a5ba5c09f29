import Kaleidoscope.Node.Drawing
import Kaleidoscope.Proofs.Building
import Kaleidoscope.Proofs.Places

/-! What is written on a tree. Read in order, with its place, it is what the tokens of the body
carry, apart from parentheses and commas: nothing is lost or moved, and nothing is there twice. -/

set_option autoImplicit false

namespace Kaleidoscope

mutual

/-- What the nodes of a tree carry, in the order of the source, with their places. -/
def Node.reading : Node → List (Payload × Position)
  | .textual s start => [(.text s, start)]
  | .number v start => [(.number v, start)]
  | .var name start => [(.text name, start)]
  | .binary operator left right start =>
    left.reading ++ (.text operator, start) :: right.reading
  | .call callee args start => (.text callee, start) :: Node.readings args
  | _ => []

def Node.readings : List Node → List (Payload × Position)
  | [] => []
  | a :: as => a.reading ++ Node.readings as

end

def Token.isMark (t : Token) : Bool := t.isChar "(" || t.isChar ")" || t.isChar ","

/-- What tokens carry, in order, with their places, the marks left out. -/
def inscriptions (ts : List Token) : List (Payload × Position) :=
  (ts.filter (!·.isMark)).map fun t => (t.payload, t.start)

/-- The tree of a body records its tokens: each node stands for one of them, in source order. -/
structure Node.Records (body : Node) (ts : List Token) : Prop where
  reading : body.reading = inscriptions ts
  count : body.reading.length = body.count
  ordered : (body.reading.map (·.2)).Pairwise Position.Precedes

/-- Where the tokens of a construct are recorded in its tree. -/
inductive Inscribes : ConstructKind → List Token → Node → Prop where
  | definition {t : Token} {u v : List Token} {proto body : Node} : t.kind = .define →
      BuildsPrototype u proto → body.Records v →
      Inscribes .definition (t :: (u ++ v)) (.function proto body t.start)
  | external {t : Token} {u : List Token} {proto : Node} : t.kind = .external →
      BuildsPrototype u proto → Inscribes .external (t :: u) proto
  | expression {t : Token} {u : List Token} {body : Node} : body.Records (t :: u) →
      Inscribes .expression (t :: u)
        (.function (.prototype Node.anonymousName [] t.start) body t.start)

theorem Node.readings_singleton (n : Node) : Node.readings [n] = n.reading :=
  List.append_nil _

theorem Node.countAll_singleton (n : Node) : Node.countAll [n] = n.count := Nat.add_zero _

theorem inscriptions_nil : inscriptions [] = [] := rfl

theorem inscriptions_append (ts us : List Token) :
    inscriptions (ts ++ us) = inscriptions ts ++ inscriptions us := by
  simp [inscriptions]

theorem inscriptions_cons_mark {t : Token} (h : t.isMark = true) (ts : List Token) :
    inscriptions (t :: ts) = inscriptions ts := by
  simp [inscriptions, h]

theorem inscriptions_cons {t : Token} (h : t.isMark = false) (ts : List Token) :
    inscriptions (t :: ts) = (t.payload, t.start) :: inscriptions ts := by
  simp [inscriptions, h]

theorem Token.isMark_of_kind_ne {t : Token} (h : t.kind ≠ .character) : t.isMark = false := by
  simp [isMark, isChar_of_kind_ne h]

theorem Token.isMark_opening {t : Token} (h : t.isChar "(" = true) : t.isMark = true := by
  simp [isMark, h]

theorem Token.isMark_closing {t : Token} (h : t.isChar ")" = true) : t.isMark = true := by
  simp [isMark, h]

theorem Token.isMark_comma {t : Token} (h : t.isChar "," = true) : t.isMark = true := by
  simp [isMark, h]

theorem inscriptions_sublist (ts : List Token) :
    ((inscriptions ts).map (·.2)).Sublist (ts.map (·.start)) := by
  have hmap : (inscriptions ts).map (·.2) = (ts.filter (!·.isMark)).map (·.start) := by
    simp [inscriptions]
  rw [hmap]
  exact List.filter_sublist.map _

namespace Grammar

variable {g : Grammar}

theorem isMark_of_level_pos (hg : g.precedence.Excludes ['(', ')', ',']) {t : Token}
    (h : 0 < g.level t) : t.isMark = false := by
  have hno : ∀ s : String, ∀ c ∈ ['(', ')', ','], s.toList = [c] → t.isChar s = false := by
    intro s c hc hs
    refine Bool.eq_false_iff.2 fun ht => ?_
    rw [level_of_excludes hg hc ht hs] at h
    omega
  simp [Token.isMark, hno "(" '(' (by simp) rfl, hno ")" ')' (by simp) rfl,
    hno "," ',' (by simp) rfl]

theorem Builds.length_readings {u : List Token} {ns : List Node} (h : g.Builds u ns) :
    (Node.readings ns).length = Node.countAll ns := by
  induction h with
  | number => rfl
  | textual => rfl
  | «variable» => rfl
  | call _ _ _ _ ih =>
    simp only [Node.readings_singleton, Node.countAll_singleton, Node.reading, Node.count,
      List.length_cons, ih]
    omega
  | parenthesized _ _ _ ih => exact ih
  | binary _ _ _ ihu ihv =>
    simp only [Node.readings_singleton, Node.countAll_singleton] at ihu ihv
    simp only [Node.readings_singleton, Node.countAll_singleton, Chain.join, Node.reading,
      Node.count, List.length_append, List.length_cons, ihu, ihv]
    omega
  | nothing => rfl
  | comma _ _ _ ihu ihv =>
    simp only [Node.readings_singleton, Node.countAll_singleton] at ihu
    rw [Node.readings, Node.countAll, List.length_append, ihu, ihv]

/-- Trees are read as the tokens that they stand for. -/
theorem Builds.readings_eq (hg : g.precedence.Excludes ['(', ')', ',']) {u : List Token}
    {ns : List Node} (h : g.Builds u ns) (hu : Scanned u) :
    Node.readings ns = inscriptions u := by
  induction h with
  | number hk hp =>
    rw [inscriptions_cons (Token.isMark_of_kind_ne (by rw [hk]; decide)), hp]
    rfl
  | textual hk hp =>
    rw [inscriptions_cons (Token.isMark_of_kind_ne (by rw [hk]; decide)), hp]
    rfl
  | «variable» hk =>
    rw [inscriptions_cons (Token.isMark_of_kind_ne (by rw [hk]; decide)),
      hu.payload_eq (by simp) (by rw [hk]; decide)]
    rfl
  | call hk ho _ hc ih =>
    have hargs := ih (hu.subset fun t ht => by simp [ht])
    rw [inscriptions_cons (Token.isMark_of_kind_ne (by rw [hk]; decide)),
      hu.payload_eq (by simp) (by rw [hk]; decide),
      inscriptions_cons_mark (Token.isMark_opening ho), inscriptions_append,
      inscriptions_cons_mark (Token.isMark_closing hc), inscriptions_nil, List.append_nil,
      Node.readings_singleton, Node.reading, hargs]
  | parenthesized ho _ hc ih =>
    have hinner := ih (hu.subset (by simp))
    rw [inscriptions_cons_mark (Token.isMark_opening ho), inscriptions_append,
      inscriptions_cons_mark (Token.isMark_closing hc), inscriptions_nil, List.append_nil,
      hinner]
  | binary hl _ _ ihu ihv =>
    have hk := kind_of_level_pos hl
    have hleft := ihu (hu.subset (by simp))
    have hright := ihv (hu.subset (by simp))
    rw [Node.readings_singleton] at hleft hright
    rw [inscriptions_append, inscriptions_cons (isMark_of_level_pos hg hl),
      hu.payload_eq (by simp) (by rw [hk]; decide), ← hleft, ← hright, Node.readings_singleton,
      Chain.join, Node.reading]
  | nothing => rfl
  | comma _ hc _ ihu ihv =>
    have hleft := ihu (hu.subset (by simp))
    have hright := ihv (hu.subset (by simp))
    rw [Node.readings_singleton] at hleft
    rw [inscriptions_append, inscriptions_cons_mark (Token.isMark_comma hc), ← hleft, ← hright,
      Node.readings]

theorem Builds.records (hg : g.precedence.Excludes ['(', ')', ',']) {u : List Token}
    {body : Node} (h : g.Builds u [body]) (hu : Scanned u)
    (ho : (u.map (·.start)).Pairwise Position.Precedes) : body.Records u := by
  have hr := h.readings_eq hg hu
  have hn := h.length_readings
  rw [Node.readings_singleton] at hr hn
  rw [Node.countAll_singleton] at hn
  exact ⟨hr, hn, hr ▸ ho.sublist (inscriptions_sublist u)⟩

theorem BuildsConstruct.inscribes (hg : g.precedence.Excludes ['(', ')', ','])
    {kind : ConstructKind} {u : List Token} {node : Node} (h : g.BuildsConstruct kind u node)
    (hu : Scanned u) (ho : (u.map (·.start)).Pairwise Position.Precedes) :
    Inscribes kind u node := by
  cases h with
  | @definition t u v _ _ hk hp hb =>
    have hv : v.Sublist (t :: (u ++ v)) := (List.sublist_append_right u v).cons t
    exact .definition hk hp (hb.records hg (hu.subset hv.subset) (ho.sublist (hv.map _)))
  | external hk hp => exact .external hk hp
  | expression hb => exact .expression (hb.records hg hu ho)

end Grammar

def Event.Inscribes (e : Event) (u : List Token) : Prop :=
  ∀ kind node p, e = .outcome ⟨kind, .ok node⟩ p → Kaleidoscope.Inscribes kind u node

/-- Whatever the table, as long as parentheses and commas are no operators: every construct of a
text that is accepted has a tree on which its share of the tokens is recorded. -/
theorem Setup.run_inscribed (setup : Setup) (g : Grammar) (hg : setup.grammar = .ok g)
    (hx : g.precedence.Excludes ['(', ')', ',']) (text : String) :
    ∃ p run us finish, setup.parser (.ofText text) = .ok (g, p) ∧
      setup.run (.ofText text) = .ok run ∧ run.fault = none ∧
      g.AccountsAll p run.events us run.final ∧
      lex text = us.flatten ++ [.endOfInput finish] ∧
      List.Forall₂ Event.Inscribes run.events us := by
  obtain ⟨f, us, finish, hp, -, hr, hf, hall, hl, hb⟩ := run_builds hg text
  refine ⟨⟨f, 0⟩, _, us, finish, hp, hr, hf, hall, hl, hb.imp ?_⟩
  intro e u h kind node p he
  obtain ⟨hb, hsub, hu⟩ := h
  exact (hb kind node p he).inscribes hx hu ((decomposes_lex text).ordered.sublist (hsub.map _))

theorem run_inscribed_nested :
    let text := "def f(a b) a*(b+1)\nextern g() (f(2, a)) (1 1"
    let setup : Setup := {}
    setup.grammar = .ok {} ∧ ({} : Grammar).precedence.Excludes ['(', ')', ','] ∧
      ∃ (run : Run) (us : List (List Token)) (finish : Position),
        setup.run (.ofText text) = .ok run ∧ lex text = us.flatten ++ [.endOfInput finish] ∧
        List.Forall₂ Event.Inscribes run.events us := by
  intro text setup
  have hx : ({} : Grammar).precedence.Excludes ['(', ')', ','] := by decide
  obtain ⟨p, run, us, finish, -, hr, -, -, hl, hall⟩ :=
    Setup.run_inscribed setup {} rfl hx text
  exact ⟨rfl, hx, run, us, finish, hr, hl, hall⟩

end Kaleidoscope
