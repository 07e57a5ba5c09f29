import Kaleidoscope.Proofs.DotText
import Kaleidoscope.Proofs.Forest
import Kaleidoscope.Proofs.Outlines

/-! The labels of a program's diagram. All values can be read back but the label of an operator
that is a backslash: its closing quote is taken for a part of the label, and nothing can be read
from there on. -/

set_option autoImplicit false

namespace Kaleidoscope

open Dot

namespace Dot

/-- A text without backslashes and line feeds. -/
def Clean (s : String) : Prop := '\\' ∉ s.toList ∧ '\n' ∉ s.toList

instance (s : String) : Decidable (Clean s) := inferInstanceAs (Decidable (_ ∧ _))

theorem Clean.of_all {P : Char → Prop} {s : String} (h : ∀ c ∈ s.toList, P c) (hb : ¬ P '\\')
    (hl : ¬ P '\n') : Clean s := ⟨fun hmem => hb (h _ hmem), fun hmem => hl (h _ hmem)⟩

theorem Clean.append {s t : String} (h : Clean s) (h' : Clean t) : Clean (s ++ t) :=
  ⟨notMem_append h.1 h'.1, notMem_append h.2 h'.2⟩

theorem Clean.intercalate {s : String} (h : Clean s) {xs : List String} (hx : ∀ x ∈ xs, Clean x) :
    Clean (s.intercalate xs) :=
  ⟨notMem_intercalate h.1 fun x hmem => (hx x hmem).1,
    notMem_intercalate h.2 fun x hmem => (hx x hmem).2⟩

theorem Clean.legible {s : String} (h : Clean s) (hs : s.toList.head?.any isNameStart = true) :
    Legible s := by
  cases hc : s.toList with
  | nil => rw [hc] at hs; cases hs
  | cons c cs =>
    rw [hc] at hs
    exact ⟨⟨⟨c, cs, hc, hs⟩, h.2⟩, plain_of_notMem h.1⟩

theorem Clean.legible_label {kind payload : String} (hk : isName kind.toList = true)
    (h : Clean payload) : Legible (kind ++ "\\n" ++ payload) := by
  have hkind : Clean kind := .of_all (isNamePart_of_isName hk) (by decide) (by decide)
  refine ⟨⟨?_, ?_⟩, ?_⟩
  · cases hw : kind.toList with
    | nil => rw [hw] at hk; cases hk
    | cons c cs =>
      rw [hw] at hk
      exact ⟨c, cs ++ ("\\n" ++ payload).toList, by simp [hw], (Bool.and_eq_true_iff.1 hk).1⟩
  · simp [hkind.2, h.2]
  · have hbreak : Plain ['\\', 'n'] := .pair (by decide) (by decide) .nil
    rw [String.toList_append, String.toList_append]
    exact ((plain_of_notMem hkind.1).append hbreak).append (plain_of_notMem h.1)

end Dot

theorem IsName.clean {s : String} (h : IsName s) : Clean s :=
  ⟨h.notMem (by decide), h.notMem (by decide)⟩

theorem IsName.legible {s : String} (h : IsName s) : Legible s := by
  obtain ⟨c, cs, hs, hc, -⟩ := h.spelled
  exact h.clean.legible (by simp [hs, isNameStart, hc])

theorem NumberText.clean {s : String} (h : NumberText s.toList) : Clean s :=
  .of_all h (by decide) (by decide)

def backslashLabel : String := "BinaryOp\\n\\"

theorem clean_of_isAlphanum {name : String}
    (h : ∀ c ∈ name.toList, c.isAlphanum = true ∨ c = '_') : Clean name :=
  .of_all h (by decide) (by decide)

theorem clean_signature {name : String} {params : List String} (hn : Clean name)
    (hp : ∀ p ∈ params, IsName p) : Clean (Node.signature name params) := by
  have hparams : Clean (" ".intercalate params) :=
    .intercalate (by decide) fun p hmem => (hp p hmem).clean
  exact ((hn.append (by decide)).append hparams).append (by decide)

theorem Grammar.Headed.legible_label {g : Grammar} {n : Node} (h : g.Headed n) :
    Legible n.label := by
  cases h with
  | alone hp =>
    cases hp with
    | @mk name params start hn hps =>
      have hsignature := clean_signature (clean_of_isAlphanum hn) hps
      have hlabel : Legible ("Prototype" ++ "\\n" ++ Node.signature name params) :=
        hsignature.legible_label rfl
      exact hlabel
  | function hp _ =>
    cases hp with
    | @mk name params start hn hps =>
      have hlabel : Legible ("Function" ++ "\\n" ++ name) :=
        (clean_of_isAlphanum hn).legible_label rfl
      exact hlabel

theorem Grammar.WellFormed.legible_label {g : Grammar} {n : Node} (h : g.WellFormed n) :
    Legible n.label ∨ ∃ left right start, n = .binary "\\" left right start := by
  cases h with
  | @number rank start =>
    have hlabel : Legible ("Number" ++ "\\n" ++ (Double.signed false rank).numeral) :=
      (NumberText.clean (Double.numberText_numeral _)).legible_label rfl
    exact .inl hlabel
  | @var name start hn =>
    have hlabel : Legible ("Variable" ++ "\\n" ++ name) := hn.clean.legible_label rfl
    exact .inl hlabel
  | @binary operator left right start ho _ _ =>
    obtain ⟨c, hc, hb, -⟩ := ho
    by_cases hback : c = '\\'
    · have hoperator : operator = "\\" := by
        rw [← String.toList_inj, hc, hback]
        rfl
      exact .inr ⟨left, right, start, by rw [hoperator]⟩
    · have hline : c ≠ '\n' := by
        rintro rfl
        exact absurd hb (by decide)
      have hclean : Clean operator := by simp [Clean, hc, Ne.symm hback, Ne.symm hline]
      have hlabel : Legible ("BinaryOp" ++ "\\n" ++ operator) := hclean.legible_label rfl
      exact .inl hlabel
  | @call callee args start hn _ =>
    have hlabel : Legible ("Call" ++ "\\n" ++ callee) := hn.clean.legible_label rfl
    exact .inl hlabel

theorem legible_argumentRole (k : Nat) : Legible (Node.argumentRole k) := by
  have hdigits : Clean (Nat.repr k) := by
    refine NumberText.clean ?_
    rw [Nat.repr, String.toList_ofList]
    exact numberText_toDigits k
  have hrole : Clean ("arg[" ++ Nat.repr k ++ "]") :=
    ((by decide : Clean "arg[").append hdigits).append (by decide)
  exact hrole.legible (by rw [String.toList_append, String.toList_append]; rfl)

theorem legible_word {s : String}
    (hs : s ∈ ["gray", "rounded", "left", "right", "proto", "body"]) : Legible s := by
  have hclean : ∀ s ∈ ["gray", "rounded", "left", "right", "proto", "body"],
      Clean s ∧ s.toList.head?.any isNameStart = true := by decide
  obtain ⟨hs, hstart⟩ := hclean s hs
  exact hs.legible hstart

theorem Node.legible_role {n c : Node} {k : Nat} (h : n.parts[k]? = some c) :
    Legible (n.role k) := by
  cases n with
  | binary => cases k <;> exact legible_word (by simp [role])
  | call => exact legible_argumentRole k
  | function => cases k <;> exact legible_word (by simp [role])
  | _ => simp [parts] at h

theorem Grammar.WellFormedAs.legible_title {g : Grammar} {kind : ConstructKind} {n : Node}
    (h : g.WellFormedAs kind n) : Legible n.title := by
  cases h with
  | definition hp =>
    cases hp with
    | mk hn => exact hn.legible
  | external hp =>
    cases hp with
    | @mk name params start hn =>
      have htitle : Clean ("extern " ++ name) := Clean.append (by decide) hn.clean
      exact htitle.legible (by rw [String.toList_append]; rfl)
  | expression =>
    have hname : Clean Node.anonymousName := by decide
    exact hname.legible (by decide)

theorem Diagram.mem_items {d : Diagram} {item : DiagramItem} :
    (∃ i, (i, item) ∈ d.items) ↔ ∃ c ∈ d.clusters, item ∈ c.items := by
  have hfrom : ∀ index cs, (∃ i, (i, item) ∈ itemsFrom index cs) ↔ ∃ c ∈ cs, item ∈ c.items := by
    intro index cs
    induction cs generalizing index with
    | nil => simp [itemsFrom]
    | cons c cs ih => simp [itemsFrom, exists_or, ih]
  exact hfrom 0 d.clusters

theorem Cluster.mem_values {index : Nat} {c : Cluster} {s : String} :
    s ∈ (c.statements index).flatMap Statement.values ↔
      s ∈ ["gray", "rounded"] ∨ s = c.title ∨ ∃ item ∈ c.items, s ∈ item.statement.values := by
  simp only [statements, List.flatMap_append, List.flatMap_cons, List.flatMap_nil, Statement.values,
    List.flatMap_map, List.mem_append, List.mem_flatMap, List.mem_cons, List.not_mem_nil, false_or,
    or_false]
  tauto

theorem Diagram.mem_clusterValues {d : Diagram} {s : String} :
    s ∈ d.clusterValues ↔ ∃ c ∈ d.clusters,
      s ∈ ["gray", "rounded"] ∨ s = c.title ∨ ∃ item ∈ c.items, s ∈ item.statement.values := by
  have hfrom : ∀ index cs, s ∈ (statementsFrom index cs).flatMap Statement.values ↔
      ∃ c ∈ cs, s ∈ ["gray", "rounded"] ∨ s = c.title ∨
        ∃ item ∈ c.items, s ∈ item.statement.values := by
    intro index cs
    induction cs generalizing index with
    | nil => simp [statementsFrom]
    | cons c cs ih =>
      rw [statementsFrom, List.flatMap_append, List.mem_append, Cluster.mem_values, ih,
        List.exists_mem_cons_iff]
  exact hfrom 0 d.clusters

theorem Node.wellFormed_or_headed {g : Grammar} {trees : List Node}
    (h : ∀ n ∈ trees, ∃ kind, g.WellFormedAs kind n) :
    ∀ v ∈ forest trees, g.WellFormed v.node ∨ g.Headed v.node := by
  refine forall_forest (P := fun n => g.WellFormed n ∨ g.Headed n)
    (fun _ hn _ hc => Grammar.wellFormed_or_headed_parts hn hc) fun n hn => ?_
  obtain ⟨kind, hk⟩ := h n hn
  exact .inr hk.headed

theorem Dot.Legible.wellFormed {s : String} (h : Legible s) : WellFormed (value s).toList :=
  h.wellFormed_iff.2 h.plain.backslashes

theorem wordy_backslashLabel : Wordy backslashLabel :=
  ⟨⟨'B', "inaryOp\\n\\".toList, by decide, by decide⟩, by decide⟩

theorem not_wellFormed_backslashLabel : ¬ WellFormed (Dot.value backslashLabel).toList := by
  rw [wordy_backslashLabel.wellFormed_iff]
  decide

theorem not_legible_backslashLabel : ¬ Legible backslashLabel := fun h =>
  not_wellFormed_backslashLabel h.wellFormed

theorem Diagram.wellFormed_preamble {s : String} (hs : s ∈ preamble.flatMap Statement.values) :
    WellFormed (Dot.value s).toList := by
  have hconstant : ∀ s ∈ preamble.flatMap Statement.values,
      Dot.value s = s ∧ (isName s.toList || isNumber s.toList) = true := by decide +kernel
  obtain ⟨hv, hs⟩ := hconstant s hs
  rw [hv]
  rcases Bool.or_eq_true_iff.1 hs with hs | hs
  · exact .name hs
  · exact .number hs

def UsesBackslash (trees : List Node) : Prop :=
  ∃ v ∈ Node.forest trees, ∃ left right start, v.node = .binary "\\" left right start

section

variable {g : Grammar} {trees : List Node} {s : String}

theorem Node.legible_or_backslash (h : ∀ n ∈ trees, ∃ kind, g.WellFormedAs kind n)
    (hs : s ∈ (Diagram.mk (clusters 0 trees)).clusterValues) :
    Legible s ∨ s = backslashLabel ∧ UsesBackslash trees := by
  have hd := depicts_clusters trees
  obtain ⟨c, hc, hs⟩ := Diagram.mem_clusterValues.1 hs
  rcases hs with hs | rfl | ⟨item, hmem, hs⟩
  · exact .inl (legible_word (List.mem_append_left ["left", "right", "proto", "body"] hs))
  · have htitle := List.mem_map_of_mem (f := Cluster.title) hc
    rw [hd.titles] at htitle
    obtain ⟨n, hn, he⟩ := List.mem_map.1 htitle
    obtain ⟨kind, hk⟩ := h n hn
    rw [← he]
    exact .inl hk.legible_title
  · obtain ⟨i, hitem⟩ := Diagram.mem_items.2 ⟨c, hc, hmem⟩
    cases item with
    | node id label =>
      have hs : s = label := by simpa [DiagramItem.statement, Statement.values] using hs
      obtain ⟨v, hv, hlabel⟩ := hd.exists_label hitem
      rw [hs, ← hlabel]
      rcases wellFormed_or_headed h v hv with hw | hw
      · rcases hw.legible_label with hl | ⟨left, right, start, hb⟩
        · exact .inl hl
        · exact .inr ⟨by rw [hb]; rfl, v, hv, left, right, start, hb⟩
      · exact .inl hw.legible_label
    | edge a b role =>
      have hs : s = role := by simpa [DiagramItem.statement, Statement.values] using hs
      obtain ⟨v, w, k, -, -, ⟨-, hk⟩, rfl, -⟩ := (hd.edge_iff i a b role).1 hitem
      rw [hs]
      exact .inl (legible_role hk)

theorem UsesBackslash.label_mem (h : UsesBackslash trees) :
    backslashLabel ∈ (Diagram.mk (Node.clusters 0 trees)).clusterValues := by
  have hd := Node.depicts_clusters trees
  obtain ⟨v, hv, left, right, start, hb⟩ := h
  obtain ⟨id, hid⟩ := List.getElem?_of_mem hv
  obtain ⟨i, hi⟩ := hd.exists_node hid
  obtain ⟨c, hc, hitem⟩ := Diagram.mem_items.1 ⟨i, hi⟩
  refine Diagram.mem_clusterValues.2 ⟨c, hc, .inr (.inr ⟨_, hitem, ?_⟩)⟩
  rw [hb]
  exact List.mem_singleton_self _

theorem UsesBackslash.isInfix (h : ∀ n ∈ trees, ∃ kind, g.WellFormedAs kind n)
    (hu : UsesBackslash trees) : g.IsInfix "\\" := by
  obtain ⟨v, hv, left, right, start, hb⟩ := hu
  have hw := Node.wellFormed_or_headed h v hv
  rw [hb] at hw
  rcases hw with hw | hw
  · cases hw
    assumption
  · cases hw with
    | alone hp => cases hp

theorem Node.backslashLabel_mem_iff (h : ∀ n ∈ trees, ∃ kind, g.WellFormedAs kind n) :
    backslashLabel ∈ (Diagram.mk (clusters 0 trees)).values ↔ UsesBackslash trees := by
  rw [Diagram.values, Diagram.statements, List.flatMap_append, List.mem_append]
  constructor
  · rintro (hmem | hmem)
    · exact absurd hmem (by decide +kernel)
    · rcases legible_or_backslash h hmem with hl | ⟨-, hu⟩
      · exact absurd hl not_legible_backslashLabel
      · exact hu
  · exact fun hu => .inr hu.label_mem

theorem Node.wellFormed_values_iff (h : ∀ n ∈ trees, ∃ kind, g.WellFormedAs kind n)
    (hs : s ∈ (Diagram.mk (clusters 0 trees)).values) :
    WellFormed (Dot.value s).toList ↔ s ≠ backslashLabel := by
  constructor
  · rintro hw rfl
    exact not_wellFormed_backslashLabel hw
  · intro hne
    rw [Diagram.values, Diagram.statements, List.flatMap_append] at hs
    rcases List.mem_append.1 hs with hs | hs
    · exact Diagram.wellFormed_preamble hs
    · rcases legible_or_backslash h hs with hl | ⟨hb, -⟩
      · exact hl.wellFormed
      · exact absurd hb hne

end

theorem Grammar.WellFormed.exists_kind {g : Grammar} {n : Node} (h : g.WellFormed n) :
    ∃ kind payload : String, isName kind.toList = true ∧ n.label = kind ++ "\\n" ++ payload := by
  cases h with
  | number => exact ⟨"Number", _, rfl, rfl⟩
  | var => exact ⟨"Variable", _, rfl, rfl⟩
  | binary => exact ⟨"BinaryOp", _, rfl, rfl⟩
  | call => exact ⟨"Call", _, rfl, rfl⟩

theorem Grammar.WellFormed.wordy_label {g : Grammar} {n : Node} (h : g.WellFormed n) :
    Wordy n.label := by
  rcases h.legible_label with hl | ⟨left, right, start, rfl⟩
  · exact hl.toWordy
  · exact wordy_backslashLabel

theorem Grammar.WellFormed.value_label {g : Grammar} {n : Node} (h : g.WellFormed n) :
    ∃ kind rest, isName kind = true ∧
      (Dot.value n.label).toList = '"' :: kind ++ '\\' :: rest := by
  obtain ⟨kind, payload, hk, hl⟩ := h.exists_kind
  have hlabel : n.label.toList = kind.toList ++ '\\' :: 'n' :: payload.toList := by
    rw [hl]
    simp
  rcases h.wordy_label.value_cases with ⟨hn, -, -⟩ | hv
  · have hmem : '\\' ∈ n.label.toList := by simp [hlabel]
    exact absurd (isNamePart_of_isName hn _ hmem) (by decide)
  · refine ⟨kind.toList, escapeQuotes true ('n' :: payload.toList) ++ ['"'], hk, ?_⟩
    rw [hv, String.toList_ofList, hlabel, escapeQuotes_append (isNamePart_of_isName hk),
      escapeQuotes_backslash]
    simp

theorem Grammar.WellFormed.scan_line_eq_none {g : Grammar} {n : Node} (h : g.WellFormed n)
    (acc : List Char) (id : Nat) (rest : List Char) :
    scan (.quoted acc) ((DiagramItem.node id n.label).line.toList ++ rest) = none := by
  obtain ⟨kind, tail, hk, hv⟩ := h.value_label
  have hid : ∀ c, c.isDigit = false → c ∉ Nat.toDigits 10 id := by
    intro c hc hmem
    rw [Nat.isDigit_of_mem_toDigits (by decide) (by decide) hmem] at hc
    cases hc
  have hfirst : ∀ c, c.isDigit = false → c ∉ "\t\tn".toList → c ∉ " [label=".toList →
      c ∉ "\t\tn".toList ++ Nat.toDigits 10 id ++ " [label=".toList := fun c hc hbefore hbehind =>
    List.not_mem_append (List.not_mem_append hbefore (hid c hc)) hbehind
  have hline : (DiagramItem.node id n.label).line.toList ++ rest =
      ("\t\tn".toList ++ Nat.toDigits 10 id ++ " [label=".toList) ++
        ('"' :: (kind ++ '\\' :: (tail ++ ']' :: rest))) := by
    simp [DiagramItem.line, toString, hv]
  rw [hline]
  refine scan_eq_none_of_append (scan_quoted acc (hfirst '"' (by decide) (by decide) (by decide))
    (hfirst '\\' (by decide) (by decide) (by decide))) ?_
  simp [scan, step, scan_backslash hk]

theorem scan_backslashLabel (id : Nat) :
    ∃ acc ts, scan .between ((DiagramItem.node id backslashLabel).line.toList ++ ['\n']) =
      some (.quoted acc, ts) := by
  have hindent : Scans ['\t', '\t'] [] := rfl
  have hlabel : ∃ acc ts, scan .between "[label=\"BinaryOp\\n\\\"]\n".toList =
    some (.quoted acc, ts) := ⟨_, _, rfl⟩
  obtain ⟨acc, ts, hlabel⟩ := hlabel
  have hvalue : Dot.value backslashLabel = "\"BinaryOp\\n\\\"" := by decide
  have hall := scan_of_append (hindent.append (scans_id id)) hlabel
  refine ⟨acc, _, Eq.trans (congrArg _ ?_) hall⟩
  simp [DiagramItem.line, toString, hvalue]

/-- Every value can be read back, but the label of a backslash. A node with this label has another
node behind it. -/
def Followed (g : Grammar) : List DiagramItem → Prop
  | [] => True
  | item :: items =>
    ((∀ s ∈ item.statement.values, Legible s) ∨
      ∃ id id' c after, item = .node id backslashLabel ∧ items = .node id' c.label :: after ∧
        g.WellFormed c) ∧ Followed g items

namespace Followed

variable {g : Grammar} {items items' : List DiagramItem}

theorem append (h : Followed g items) (h' : Followed g items') : Followed g (items ++ items') := by
  induction items with
  | nil => exact h'
  | cons item items ih =>
    obtain ⟨hitem, hitems⟩ := h
    refine ⟨?_, ih hitems⟩
    rcases hitem with hl | ⟨id, id', c, after, hi, rfl, hc⟩
    · exact .inl hl
    · exact .inr ⟨id, id', c, after ++ items', hi, rfl, hc⟩

theorem cons {item : DiagramItem} (hl : ∀ s ∈ item.statement.values, Legible s)
    (h : Followed g items) : Followed g (item :: items) := ⟨.inl hl, h⟩

theorem legible_or (h : Followed g items) :
    (∀ item ∈ items, ∀ s ∈ item.statement.values, Legible s) ∨
      ∀ rest, scan .between (linesText (items.map DiagramItem.line) ++ rest) = none := by
  induction items with
  | nil => simp
  | cons item items ih =>
    obtain ⟨hl | ⟨id, id', c, after, rfl, rfl, hc⟩, hitems⟩ := h
    · rcases ih hitems with hi | hi
      · exact .inl (List.forall_mem_cons.2 ⟨hl, hi⟩)
      · refine .inr fun rest => ?_
        have hall := scan_eq_none_of_append (DiagramItem.scans_line hl) (hi rest)
        simpa [linesText] using hall
    · obtain ⟨acc, ts, hb⟩ := scan_backslashLabel id
      refine .inr fun rest => ?_
      have hnext := hc.scan_line_eq_none acc id'
        ('\n' :: (linesText (after.map DiagramItem.line) ++ rest))
      have hall := scan_eq_none_of_append hb hnext
      simpa [linesText] using hall

end Followed

theorem legible_node {id : Nat} {label : String} (h : Legible label) :
    ∀ s ∈ (DiagramItem.node id label).statement.values, Legible s := by
  simpa [DiagramItem.statement, Statement.values] using h

theorem legible_edge {n c : Node} {a b k : Nat} (h : n.parts[k]? = some c) :
    ∀ s ∈ (DiagramItem.edge a b (n.role k)).statement.values, Legible s := by
  simpa [DiagramItem.statement, Statement.values] using Node.legible_role h

theorem Node.followed_drawUnder {g : Grammar} {n : Node} {cs : List Node}
    (h : ∀ c ∈ cs, ∀ id, Followed g (c.draw id)) (parent id k : Nat)
    (hk : ∀ i, (cs[i]?).isSome → (n.parts[k + i]?).isSome) :
    Followed g (drawUnder parent n id k cs) := by
  induction cs generalizing id k with
  | nil => trivial
  | cons c cs ih =>
    obtain ⟨hc, hcs⟩ := List.forall_mem_cons.1 h
    obtain ⟨d, hd⟩ := Option.isSome_iff_exists.1 (hk 0 rfl)
    have hrest := ih hcs (id + c.count) (k + 1) fun i hi => by
      have hnext := hk (i + 1) hi
      rwa [← Nat.add_assoc, Nat.add_right_comm] at hnext
    exact (hc id).append (.cons (legible_edge hd) hrest)

theorem Grammar.WellFormed.followed_draw {g : Grammar} {n : Node} (h : g.WellFormed n) (id : Nat) :
    Followed g (n.draw id) := by
  induction n using Node.induct_parts generalizing id with
  | step n ih =>
    have hunder : Followed g (Node.drawUnder id n (id + 1) 0 n.parts) := by
      refine Node.followed_drawUnder (fun c hc id => ih c hc (h.parts hc) id) _ _ _ fun i hi => ?_
      rwa [Nat.zero_add]
    rw [Node.draw_eq]
    rcases h.legible_label with hl | ⟨left, right, start, rfl⟩
    · exact hunder.cons (legible_node hl)
    · have hnext : ∃ after, Node.drawUnder id (.binary "\\" left right start) (id + 1) 0
          [left, right] = .node (id + 1) left.label :: after := by
        rw [Node.drawUnder, Node.draw_eq, List.cons_append]
        exact ⟨_, rfl⟩
      obtain ⟨after, hnext⟩ := hnext
      exact ⟨.inr ⟨id, id + 1, left, after, rfl, hnext, h.parts List.mem_cons_self⟩, hunder⟩

theorem Grammar.Headed.followed_draw {g : Grammar} {n : Node} (h : g.Headed n) (id : Nat) :
    Followed g (n.draw id) := by
  induction n using Node.induct_parts generalizing id with
  | step n ih =>
    rw [Node.draw_eq]
    refine .cons (legible_node h.legible_label) ?_
    refine Node.followed_drawUnder (fun c hc id => ?_) _ _ _ fun i hi => by rwa [Nat.zero_add]
    rcases h.parts hc with hw | hw
    · exact hw.followed_draw id
    · exact ih c hc hw id

theorem Diagram.scan_clusterLines_or {g : Grammar} {cs : List Cluster}
    (hc : ∀ c ∈ cs, Legible c.title ∧ Followed g c.items) (index : Nat) :
    (∀ s ∈ (statementsFrom index cs).flatMap Statement.values, Legible s) ∨
      ∀ rest, scan .between (linesText (clusterLines index cs) ++ rest) = none := by
  induction cs generalizing index with
  | nil => simp [statementsFrom]
  | cons c cs ih =>
    obtain ⟨⟨htitle, hfollowed⟩, hcs⟩ := List.forall_mem_cons.1 hc
    have hlines : ∀ rest, linesText (clusterLines index (c :: cs)) ++ rest =
        linesText (c.lines index) ++ (linesText (clusterLines (index + 1) cs) ++ rest) := by
      intro rest
      rw [clusterLines, linesText_append, List.append_assoc]
    rcases hfollowed.legible_or with hi | hi
    · have hall : ∀ s ∈ (c.statements index).flatMap Statement.values, Legible s := by
        intro s hs
        rcases Cluster.mem_values.1 hs with hs | rfl | ⟨item, hitem, hs⟩
        · exact legible_word (List.mem_append_left ["left", "right", "proto", "body"] hs)
        · exact htitle
        · exact hi item hitem s hs
      rcases ih hcs (index + 1) with hr | hr
      · refine .inl ?_
        rw [statementsFrom, List.flatMap_append]
        exact List.forall_mem_append.2 ⟨hall, hr⟩
      · refine .inr fun rest => ?_
        rw [hlines]
        exact scan_eq_none_of_append (Cluster.scans_lines index hall) (hr rest)
    · refine .inr fun rest => ?_
      have hhead := Cluster.scans_head index htitle
      have hnone := scan_eq_none_of_append hhead (hi ('\t' :: '\x7d' :: '\n' ::
        (linesText (clusterLines (index + 1) cs) ++ rest)))
      rw [hlines]
      simpa [Cluster.lines, linesText] using hnone

theorem Diagram.read_text_or {g : Grammar} {d : Diagram}
    (hd : ∀ c ∈ d.clusters, Legible c.title ∧ Followed g c.items) :
    (∀ s ∈ d.clusterValues, Legible s) ∨ Dot.read d.text = none := by
  rcases scan_clusterLines_or hd 0 with hl | hn
  · exact .inl hl
  · refine .inr ?_
    have hhead : ∃ ts, Scans (linesText ["digraph \x7b", "\tgraph [rankdir=TB]",
        "\tnode [fontname=Helvetica fontsize=10 shape=box]"]) ts := ⟨_, scans_preamble⟩
    obtain ⟨ts, hhead⟩ := hhead
    have hscan : scan .between d.text.toList = none := by
      rw [toList_text, lines, linesText_append, linesText_append, List.append_assoc]
      exact scan_eq_none_of_append hhead (hn _)
    unfold Dot.read
    rw [hscan]
    rfl

theorem Node.followed_clusters {g : Grammar} {trees : List Node}
    (h : ∀ n ∈ trees, ∃ kind, g.WellFormedAs kind n) (id : Nat) :
    ∀ c ∈ clusters id trees, Legible c.title ∧ Followed g c.items := by
  induction trees generalizing id with
  | nil => simp [clusters]
  | cons n ns ih =>
    obtain ⟨⟨kind, hk⟩, hns⟩ := List.forall_mem_cons.1 h
    exact List.forall_mem_cons.2 ⟨⟨hk.legible_title, hk.headed.followed_draw id⟩, ih hns _⟩

/-- The text of trees is read back, or it cannot be read at all if an operator is a backslash. -/
theorem Node.read_diagram {g : Grammar} {trees : List Node}
    (h : ∀ n ∈ trees, ∃ kind, g.WellFormedAs kind n) :
    let d : Diagram := ⟨clusters 0 trees⟩
    diagram trees = .ok d ∧ (¬ UsesBackslash trees → Dot.read d.text = some d.statements) ∧
      (UsesBackslash trees → Dot.read d.text = none) := by
  intro d
  refine ⟨diagram_eq fun n hn => ?_, fun hu => ?_, fun hu => ?_⟩
  · obtain ⟨kind, hk⟩ := h n hn
    exact hk.flawless
  · refine Diagram.read_text fun s hs => ?_
    rcases legible_or_backslash h hs with hl | ⟨-, hb⟩
    · exact hl
    · exact absurd hb hu
  · rcases Diagram.read_text_or (followed_clusters h 0) with hl | hn
    · exact absurd (hl _ hu.label_mem) not_legible_backslashLabel
    · exact hn

/-- The text of a program's diagram, whatever the text of the program, the table and the depth
allowed. Every value ends where it should but the label of an operator that is a backslash. Without
such an operator the text says what the diagram states; with one it cannot be read. -/
theorem Setup.dot_text (setup : Setup) (g : Grammar) (hg : setup.grammar = .ok g) (text : String) :
    ∃ run d, setup.Runs text run ∧ Node.diagram (Event.nodes run.events) = .ok d ∧
      (∀ s ∈ d.values, Dot.WellFormed (Dot.value s).toList ↔ s ≠ backslashLabel) ∧
      (backslashLabel ∈ d.values ↔ UsesBackslash (Event.nodes run.events)) ∧
      (¬ UsesBackslash (Event.nodes run.events) → Dot.read d.text = some d.statements) ∧
      (UsesBackslash (Event.nodes run.events) → Dot.read d.text = none ∧ g.IsInfix "\\") := by
  obtain ⟨run, hr, hall⟩ := setup.exists_wellFormedAs hg text
  obtain ⟨hdiagram, hread, hnone⟩ := Node.read_diagram hall
  exact ⟨run, _, hr, hdiagram, fun s hs => Node.wellFormed_values_iff hall hs,
    Node.backslashLabel_mem_iff hall, hread, fun hu => ⟨hnone hu, hu.isInfix hall⟩⟩

theorem dot_text_quote :
    let setup : Setup := { table := some [(.text "\"", .integer 5), (.text "|", .integer 1)] }
    let g : Grammar := { precedence := ⟨[('"', 5), ('|', 1)]⟩ }
    setup.grammar = .ok g ∧
      ∃ run d, setup.Runs "a \" b | node" run ∧ Node.diagram (Event.nodes run.events) = .ok d ∧
        d.values.length = 20 ∧
        (∀ s ∈ d.values, Dot.WellFormed (Dot.value s).toList) ∧
        Dot.read d.text = some d.statements := by
  intro setup g
  have hg : setup.grammar = .ok g := rfl
  obtain ⟨run, d, hr, hd, hvalues, hlabel, hread, -⟩ := setup.dot_text g hg "a \" b | node"
  have hview := hr.eq_of_map
    (fun run => (Node.diagram (Event.nodes run.events)).toOption.map fun d =>
      (d.values.length, d.values.contains backslashLabel))
    (by decide +kernel : _ = some (some (20, false)))
  simp only [hd, Except.toOption, Option.map_some, Option.some.injEq, Prod.mk.injEq] at hview
  obtain ⟨hlength, hnone⟩ := hview
  have hmem : backslashLabel ∉ d.values := by simpa using hnone
  refine ⟨hg, run, d, hr, hd, hlength, fun s hs => ?_, hread fun hu => hmem (hlabel.2 hu)⟩
  rw [hvalues s hs]
  rintro rfl
  exact hmem hs

/-- The label of a backslash swallows what stands behind it. -/
theorem not_wellFormed_backslash :
    let setup : Setup := { table := some [(.text "\\", .integer 10)] }
    ∃ run d, setup.Runs "a \\ b" run ∧ Node.diagram (Event.nodes run.events) = .ok d ∧
      (∃ s ∈ d.values, ¬ Dot.WellFormed (Dot.value s).toList) ∧
      Dot.read d.text ≠ some d.statements := by
  intro setup
  obtain ⟨run, hr, hall⟩ := setup.exists_wellFormedAs (g := ⟨⟨[('\\', 10)]⟩, 200⟩) rfl "a \\ b"
  obtain ⟨hd, -, hnone⟩ := Node.read_diagram hall
  have hmem := hr.eq_of_map
    (fun run => (Diagram.mk (Node.clusters 0 (Event.nodes run.events))).values.contains
      backslashLabel)
    (by decide +kernel : _ = some true)
  have hmem := List.contains_iff_mem.1 hmem
  refine ⟨run, _, hr, hd, ⟨_, hmem, not_wellFormed_backslashLabel⟩, ?_⟩
  rw [hnone ((Node.backslashLabel_mem_iff hall).1 hmem)]
  simp

end Kaleidoscope
