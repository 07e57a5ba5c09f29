import Kaleidoscope.Node.Document
import Kaleidoscope.Node.Drawing
import Kaleidoscope.Node.Outline
import Kaleidoscope.Proofs.Building
import Kaleidoscope.Proofs.Printing

/-! Parsed trees are well formed: names are names, operators are operators of the table, numbers
have no sign, and no function or prototype stands inside an expression. No view of such a tree
fails. -/

set_option autoImplicit false

namespace Kaleidoscope

/-- An operator is a single character that starts no word, no numeral and no comment, is not blank,
and has a positive level in the table. -/
def Grammar.IsInfix (g : Grammar) (s : String) : Prop :=
  ∃ c, s.toList = [c] ∧ Text.isBlank c = false ∧ c ≠ '#' ∧ c.isAlpha = false ∧
    c.isDigit = false ∧ c ≠ '.' ∧ 0 < g.precedence.entry c

/-- The expressions that a text can hold. -/
inductive Grammar.WellFormed (g : Grammar) : Node → Prop where
  | number {rank : Fin (infinityRank + 1)} {start : Position} :
      WellFormed g (.number (.signed false rank) start)
  | var {name : String} {start : Position} : IsName name → WellFormed g (.var name start)
  | binary {operator : String} {left right : Node} {start : Position} : g.IsInfix operator →
      WellFormed g left → WellFormed g right → WellFormed g (.binary operator left right start)
  | call {callee : String} {args : List Node} {start : Position} : IsName callee →
      (∀ a ∈ args, WellFormed g a) → WellFormed g (.call callee args start)

inductive IsSignature : Node → Prop where
  | mk {name : String} {params : List String} {start : Position} : IsName name →
      (∀ p ∈ params, IsName p) → IsSignature (.prototype name params start)

inductive Grammar.WellFormedAs (g : Grammar) : ConstructKind → Node → Prop where
  | definition {proto body : Node} {start : Position} : IsSignature proto → g.WellFormed body →
      WellFormedAs g .definition (.function proto body start)
  | external {proto : Node} : IsSignature proto → WellFormedAs g .external proto
  | expression {body : Node} {start start' : Position} : g.WellFormed body →
      WellFormedAs g .expression
        (.function (.prototype Node.anonymousName [] start) body start')

/-- The trees that can stand in an expression, whatever their names, operators and numbers are. -/
inductive Node.IsOperand : Node → Prop where
  | number {value : Double} {start : Position} : IsOperand (.number value start)
  | var {name : String} {start : Position} : IsOperand (.var name start)
  | binary {operator : String} {left right : Node} {start : Position} : IsOperand left →
      IsOperand right → IsOperand (.binary operator left right start)
  | call {callee : String} {args : List Node} {start : Position} : (∀ a ∈ args, IsOperand a) →
      IsOperand (.call callee args start)

/-- The trees in which every child is of the right kind. -/
inductive Node.IsRegular : Node → Prop where
  | operand {n : Node} : n.IsOperand → IsRegular n
  | prototype {name : String} {params : List String} {start : Position} :
      IsRegular (.prototype name params start)
  | function {name : String} {params : List String} {body : Node} {start start' : Position} :
      body.IsOperand → IsRegular (.function (.prototype name params start) body start')

def Node.heading : Node → Node
  | .function proto _ _ => proto
  | n => n

structure Node.Flawless (n : Node) : Prop where
  outline : n.outlineDefect? = none
  surface : n.surfaceDefect? = none
  document : n.documentDefect? = none
  drawing : n.drawingDefect? = none
  present : n ≠ .missing

section Scanned

variable {tail l : List Char} {t : Token}

theorem Reads.isName (h : Reads tail l t) (hk : t.kind = .identifier) : IsName t.text := by
  cases h with
  | @word c cs kind start hc hcs _ hw =>
    cases hk
    cases hw with
    | identifier hd hx =>
      have hne : ∀ word : String, c :: cs ≠ word.toList → String.ofList (c :: cs) ≠ word :=
        fun word h he => h (by rw [← he, String.toList_ofList])
      exact ⟨⟨c, cs, String.toList_ofList, hc, hcs⟩, hne "def" hd, hne "extern" hx⟩
  | number => cases hk
  | symbol => cases hk

theorem IsNumber.signed {cs : List Char} {payload : Payload} (h : IsNumber cs payload) :
    payload = .none ∨ ∃ rank, payload = .number (.signed false rank) := by
  cases h with
  | whole => exact .inr ⟨_, rfl⟩
  | point => exact .inr ⟨_, rfl⟩
  | malformed => exact .inl rfl

theorem Reads.number_signed (h : Reads tail l t) (hk : t.kind = .number) :
    t.payload = .none ∨ ∃ rank, t.payload = .number (.signed false rank) := by
  cases h with
  | word _ _ _ hw => cases hw <;> cases hk
  | number _ _ _ hv => exact hv.signed
  | symbol => cases hk

theorem Reads.isInfix {g : Grammar} (h : Reads tail l t) (hl : 0 < g.level t) :
    g.IsInfix t.text := by
  have hk := Grammar.kind_of_level_pos hl
  cases h with
  | word _ _ _ hw => cases hw <;> cases hk
  | number => cases hk
  | @symbol c start ha hn hi =>
    obtain ⟨hb, hc⟩ := isInk_iff.1 hi
    have hlevel : 0 < g.precedence.level c := by
      simpa only [Grammar.level, String.toList_ofList] using hl
    simp only [isNumeralChar, Bool.or_eq_false_iff, beq_eq_false_iff_ne] at hn
    exact ⟨c, String.toList_ofList, hb, hc, ha, hn.1, hn.2,
      (Precedence.level_pos_iff _ _).1 hlevel⟩

end Scanned

namespace Grammar

variable {g : Grammar}

/-- What is built of scanned tokens is well formed. -/
theorem Builds.wellFormed {u : List Token} {ns : List Node} (h : g.Builds u ns)
    (hu : Scanned u) : ∀ n ∈ ns, g.WellFormed n := by
  induction h with
  | number hk hp =>
    obtain ⟨l, rest, hr⟩ := hu _ (List.mem_singleton_self _)
    obtain hnone | ⟨rank, hrank⟩ := hr.number_signed hk
    · rw [hnone] at hp
      cases hp
    · rw [hrank] at hp
      cases hp
      simpa using WellFormed.number
  | textual hk hp =>
    obtain ⟨l, rest, hr⟩ := hu _ (List.mem_singleton_self _)
    obtain hnone | ⟨rank, hrank⟩ := hr.number_signed hk
    · rw [hnone] at hp
      cases hp
    · rw [hrank] at hp
      cases hp
  | «variable» hk =>
    obtain ⟨l, rest, hr⟩ := hu _ (List.mem_singleton_self _)
    simpa using WellFormed.var (hr.isName hk)
  | call hk _ _ _ ih =>
    obtain ⟨l, rest, hr⟩ := hu _ List.mem_cons_self
    have hargs := ih (hu.subset fun t ht => by simp [ht])
    simpa using WellFormed.call (hr.isName hk) hargs
  | parenthesized _ _ _ ih => exact ih (hu.subset (by simp))
  | binary hl _ _ ihu ihv =>
    obtain ⟨l, rest, hr⟩ := hu _ (List.mem_append_right _ List.mem_cons_self)
    have hleft := ihu (hu.subset (by simp)) _ (List.mem_singleton_self _)
    have hright := ihv (hu.subset (by simp)) _ (List.mem_singleton_self _)
    simpa [Chain.join] using WellFormed.binary (hr.isInfix hl) hleft hright
  | nothing => simp
  | comma _ _ _ ihu ihv =>
    have hfirst := ihu (hu.subset (by simp)) _ (List.mem_singleton_self _)
    exact List.forall_mem_cons.2 ⟨hfirst, ihv (hu.subset (by simp))⟩

theorem BuildsPrototype.isSignature {u : List Token} {proto : Node}
    (h : BuildsPrototype u proto) (hu : Scanned u) : IsSignature proto := by
  cases h with
  | @mk name opening closing params hk _ hps _ =>
    have hname : ∀ t ∈ name :: params, t.kind = .identifier → IsName t.text := by
      intro t ht hkt
      obtain ⟨l, rest, hr⟩ := hu t (by
        obtain rfl | ht := List.mem_cons.1 ht
        · exact List.mem_cons_self
        · simp [ht])
      exact hr.isName hkt
    refine .mk (hname name (by simp) hk) fun p hp => ?_
    obtain ⟨t, ht, rfl⟩ := List.mem_map.1 hp
    exact hname t (by simp [ht]) (hps t ht)

theorem BuildsConstruct.wellFormedAs {kind : ConstructKind} {u : List Token} {node : Node}
    (h : g.BuildsConstruct kind u node) (hu : Scanned u) : g.WellFormedAs kind node := by
  cases h with
  | definition _ hp hb =>
    refine .definition (BuildsPrototype.isSignature hp (hu.subset fun t ht => by simp [ht])) ?_
    exact hb.wellFormed (hu.subset fun t ht => by simp [ht]) _ (List.mem_singleton_self _)
  | external _ hp =>
    exact .external (BuildsPrototype.isSignature hp (hu.subset fun t ht => by simp [ht]))
  | expression hb => exact .expression (hb.wellFormed hu _ (List.mem_singleton_self _))

end Grammar

namespace Node

theorem flawless_among {ns : List Node} (h : ∀ n ∈ ns, n.Flawless) :
    outlineDefectAmong? ns = none ∧ surfaceDefectAmong? ns = none ∧
      documentDefectAmong? ns = none ∧ drawingDefectAmong? ns = none := by
  induction ns with
  | nil => exact ⟨rfl, rfl, rfl, rfl⟩
  | cons n ns ih =>
    obtain ⟨hn, hns⟩ := List.forall_mem_cons.1 h
    obtain ⟨ho, hs, hd, hw⟩ := ih hns
    simp only [outlineDefectAmong?, surfaceDefectAmong?, documentDefectAmong?,
      drawingDefectAmong?, hn.outline, hn.surface, hn.document, hn.drawing, ho, hs, hd, hw]
    exact ⟨rfl, rfl, rfl, rfl⟩

theorem flawless_function {name : String} {params : List String} {body : Node}
    {start start' : Position} (hb : body.Flawless) :
    (function (prototype name params start) body start').Flawless where
  outline := by simp [outlineDefect?, name?, hb.outline]
  surface := by simp [surfaceDefect?, isPrototype, hb.surface]
  document := by simp [documentDefect?, hb.document]
  drawing := by simp [drawingDefect?, name?, hb.drawing]
  present := by simp

theorem IsOperand.flawless {n : Node} (h : n.IsOperand) : n.Flawless := by
  induction h with
  | number => exact ⟨rfl, rfl, rfl, rfl, by simp⟩
  | var => exact ⟨rfl, rfl, rfl, rfl, by simp⟩
  | binary _ _ ihl ihr =>
    constructor
    · simp [outlineDefect?, ihl.outline, ihr.outline]
    · simp [surfaceDefect?, ihl.surface, ihr.surface]
    · simp [documentDefect?, ihl.document, ihr.document]
    · simp [drawingDefect?, ihl.drawing, ihr.drawing]
    · simp
  | call _ ih =>
    obtain ⟨ho, hs, hd, hw⟩ := flawless_among ih
    exact ⟨ho, hs, hd, hw, by simp⟩

theorem IsRegular.flawless {n : Node} (h : n.IsRegular) : n.Flawless := by
  cases h with
  | operand hn => exact hn.flawless
  | prototype => exact ⟨rfl, rfl, rfl, rfl, by simp⟩
  | function hb => exact flawless_function hb.flawless

namespace Flawless

variable {n : Node}

theorem outlineAt_eq (h : n.Flawless) (indent : Int) (label : String) :
    n.outlineAt indent label = .ok ("\n".intercalate (n.lines indent label)) := by
  rw [Node.outlineAt, h.outline, unlessDefective_none]

theorem outlineAt (h : n.Flawless) (indent : Int) (label : String) :
    ∃ text, n.outlineAt indent label = .ok text := ⟨_, h.outlineAt_eq indent label⟩

theorem surface_ok (h : n.Flawless) : ∃ text, n.surface = .ok text :=
  ⟨_, by rw [Node.surface, h.surface, unlessDefective_none]⟩

theorem document_ok (h : n.Flawless) : ∃ document, n.document = .ok document :=
  ⟨_, by rw [Node.document, h.document, unlessDefective_none]⟩

theorem rootDefect (h : n.Flawless) : n.rootDefect? = none := by
  cases n with
  | missing => exact absurd rfl h.present
  | bare => exact h.drawing
  | textual => exact h.drawing
  | number => exact h.drawing
  | var => exact h.drawing
  | binary => exact h.drawing
  | call => exact h.drawing
  | prototype => exact h.drawing
  | function => exact h.drawing

end Flawless

theorem diagram_eq {ns : List Node} (h : ∀ n ∈ ns, n.Flawless) :
    diagram ns = .ok ⟨clusters 0 ns⟩ := by
  have hnone : ns.findSome? rootDefect? = none :=
    List.findSome?_eq_none_iff.2 fun n hn => (h n hn).rootDefect
  rw [diagram, hnone, unlessDefective_none]

theorem diagram_ok {ns : List Node} (h : ∀ n ∈ ns, n.Flawless) : ∃ d, diagram ns = .ok d :=
  ⟨_, diagram_eq h⟩

theorem Flawless.diagramOf {n : Node} (h : n.Flawless) : ∃ d, n.diagramOf = .ok d := by
  obtain ⟨d, hd⟩ := diagram_ok (List.forall_mem_singleton.2 h)
  refine ⟨d, ?_⟩
  unfold Node.diagramOf
  split
  · exact absurd rfl h.present
  · exact hd

end Node

namespace Grammar

variable {g : Grammar}

theorem WellFormed.isOperand {n : Node} (h : g.WellFormed n) : n.IsOperand := by
  induction h with
  | number => exact .number
  | var => exact .var
  | binary _ _ _ ihl ihr => exact .binary ihl ihr
  | call _ _ ih => exact .call ih

theorem WellFormedAs.isRegular {kind : ConstructKind} {n : Node} (h : g.WellFormedAs kind n) :
    n.IsRegular := by
  cases h with
  | definition hp hb =>
    cases hp
    exact .function hb.isOperand
  | external hp =>
    cases hp
    exact .prototype
  | expression hb => exact .function hb.isOperand

theorem WellFormedAs.flawless {kind : ConstructKind} {n : Node} (h : g.WellFormedAs kind n) :
    n.Flawless := h.isRegular.flawless

theorem WellFormedAs.isAnonymous_iff {kind : ConstructKind} {n : Node}
    (h : g.WellFormedAs kind n) : n.heading.isAnonymous = true ↔ kind = .expression := by
  cases h with
  | definition hp _ =>
    cases hp with
    | mk hn => simp [Node.heading, isAnonymous_of_isName hn]
  | external hp =>
    cases hp with
    | mk hn => simp [Node.heading, isAnonymous_of_isName hn]
  | expression => simp [Node.heading, Node.isAnonymous]

theorem WellFormedAs.isPrototype_iff {kind : ConstructKind} {n : Node}
    (h : g.WellFormedAs kind n) : n.isPrototype = true ↔ kind = .external := by
  cases h with
  | definition => simp [Node.isPrototype]
  | external hp =>
    cases hp
    simp [Node.isPrototype]
  | expression => simp [Node.isPrototype]

end Grammar

/-- Every construct of a text that is accepted has a well-formed tree, whatever the table and the
depth allowed, and every view of it can be made. Functions are anonymous in expressions and there
alone, and an external declaration is a prototype by itself. -/
theorem Setup.run_wellFormed (setup : Setup) (g : Grammar) (hg : setup.grammar = .ok g)
    (text : String) :
    ∃ run, setup.run (.ofText text) = .ok run ∧
      (∀ o ∈ Event.outcomes run.events, ∀ n, o.result = .ok n →
        g.WellFormedAs o.kind n ∧
        (n.heading.isAnonymous = true ↔ o.kind = .expression) ∧
        (n.isPrototype = true ↔ o.kind = .external) ∧
        (∀ indent label, ∃ outline, n.outlineAt indent label = .ok outline) ∧
        (∃ surface, n.surface = .ok surface) ∧
        (∃ document, n.document = .ok document) ∧
        ∃ diagram, n.diagramOf = .ok diagram) ∧
      ∃ diagram,
        Node.diagram ((Event.outcomes run.events).filterMap Outcome.node?) = .ok diagram := by
  obtain ⟨f, us, finish, -, -, hr, -, -, -, hb⟩ := run_builds hg text
  have hgood : ∀ o ∈ Event.outcomes (g.run ⟨f, 0⟩).events, ∀ n, o.result = .ok n →
      g.WellFormedAs o.kind n := by
    intro o ho n hn
    obtain ⟨e, he, heo⟩ := List.mem_filterMap.1 ho
    cases e with
    | separator => cases heo
    | outcome o' q =>
      cases heo
      obtain ⟨kind, result⟩ := o
      cases hn
      obtain ⟨u, hu⟩ := exists_of_forall₂ hb he
      exact (hu.1 kind n q rfl).wellFormedAs hu.2.2
  refine ⟨_, hr, fun o ho n hn => ?_, Node.diagram_ok fun n hn => ?_⟩
  · have hw := hgood o ho n hn
    have hf := hw.flawless
    exact ⟨hw, hw.isAnonymous_iff, hw.isPrototype_iff, hf.outlineAt, hf.surface_ok,
      hf.document_ok, hf.diagramOf⟩
  · obtain ⟨o, ho, hon⟩ := List.mem_filterMap.1 hn
    refine (hgood o ho n ?_).flawless
    unfold Outcome.node? at hon
    split at hon
    · next h => cases hon; exact h
    · cases hon

theorem run_wellFormed_mixed :
    let setup : Setup := { table := some [(.text "(", .integer 5), (.text "-", .integer 1)] }
    let g : Grammar := { precedence := ⟨[('(', 5), ('-', 1)]⟩ }
    setup.grammar = .ok g ∧ ∃ run : Run,
      setup.run (.ofText "extern f(x) def g() 1 - .5 f(2 x (3") = .ok run ∧
      ∀ o ∈ Event.outcomes run.events, ∀ n, o.result = .ok n → g.WellFormedAs o.kind n := by
  intro setup g
  have hg : setup.grammar = .ok g := rfl
  obtain ⟨run, hr, hall, -⟩ := Setup.run_wellFormed setup g hg "extern f(x) def g() 1 - .5 f(2 x (3"
  exact ⟨hg, run, hr, fun o ho n hn => (hall o ho n hn).1⟩

end Kaleidoscope
