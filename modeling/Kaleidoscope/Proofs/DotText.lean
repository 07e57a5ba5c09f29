import Kaleidoscope.Proofs.DotReader
import Kaleidoscope.Proofs.Numerals

/-! The DOT text of a diagram says what the diagram states, line by line, if all of its values can
be read back. -/

set_option autoImplicit false

namespace Kaleidoscope

open Dot (Statement Scans Restores)

def DiagramItem.statement : DiagramItem → Statement
  | .node id label => .node s!"n{id}" [("label", label)]
  | .edge parent child role => .edge s!"n{parent}" s!"n{child}" [("label", role)]

def Cluster.statements (index : Nat) (c : Cluster) : List Statement :=
  [.opening s!"cluster_{index}", .assign "color" "gray", .assign "label" c.title,
    .assign "style" "rounded"] ++ c.items.map DiagramItem.statement ++ [.closing]

namespace Diagram

def statementsFrom (index : Nat) : List Cluster → List Statement
  | [] => []
  | c :: cs => c.statements index ++ statementsFrom (index + 1) cs

def preamble : List Statement :=
  [.defaults "graph" [("rankdir", "TB")],
    .defaults "node" [("fontname", "Helvetica"), ("fontsize", "10"), ("shape", "box")]]

def statements (d : Diagram) : List Statement := preamble ++ statementsFrom 0 d.clusters

def values (d : Diagram) : List String := d.statements.flatMap Statement.values

def clusterValues (d : Diagram) : List String :=
  (statementsFrom 0 d.clusters).flatMap Statement.values

end Diagram

namespace Dot

/-- A value that is read back as it is. -/
structure Legible (s : String) : Prop extends Wordy s where
  plain : Plain s.toList

def linesText (lines : List String) : List Char := lines.flatMap fun line => line.toList ++ ['\n']

theorem linesText_append (lines lines' : List String) :
    linesText (lines ++ lines') = linesText lines ++ linesText lines' := List.flatMap_append

theorem ends_blank {c : Char} (h : c ∈ [' ', '\n']) : Ends c [] := by
  rcases List.mem_cons.1 h with rfl | h
  · exact ⟨rfl, rfl⟩
  · rw [List.mem_singleton.1 h]
    exact ⟨rfl, rfl⟩

theorem ends_bracket : Ends ']' [.mark ']'] := ⟨rfl, rfl⟩

theorem toLower_eq_self {c : Char} (h : c.isAlpha = false) : c.toLower = c := by
  have hupper := (Bool.or_eq_false_iff.1 h).1
  unfold Char.toLower
  split
  · next hc => exact absurd hc (of_decide_eq_false hupper)
  · rfl

theorem isKeyword_eq_false {c : Char} {cs : List Char} (hc : c ∈ cs) (h : c.isAlpha = false) :
    isKeyword cs = false := by
  have hwords : ∀ word ∈ keywords, word.toList.all Char.isAlpha = true := by decide
  cases hk : isKeyword cs with
  | false => rfl
  | true =>
    have hmem : String.ofList (cs.map Char.toLower) ∈ keywords := by simpa [isKeyword] using hk
    have hlower : c ∈ (String.ofList (cs.map Char.toLower)).toList := by
      rw [String.toList_ofList]
      exact List.mem_map.2 ⟨c, hc, toLower_eq_self h⟩
    rw [List.all_eq_true.1 (hwords _ hmem) c hlower] at h
    cases h

theorem scans_numbered {word : String} (h : isName word.toList = true) (n : Nat) {c : Char}
    {ts : List Token} (hc : Ends c ts) :
    Scans (word.toList ++ Nat.toDigits 10 n ++ [c]) (.name s!"{word}{n}" :: ts) := by
  have hdigit : ∀ d ∈ Nat.toDigits 10 n, d.isDigit = true := fun d hd =>
    Nat.isDigit_of_mem_toDigits (by decide) (by decide) hd
  have hname : isName (word.toList ++ Nat.toDigits 10 n) = true := by
    cases hw : word.toList with
    | nil => rw [hw] at h; cases h
    | cons a as =>
      rw [hw] at h
      obtain ⟨ha, has⟩ := Bool.and_eq_true_iff.1 h
      have hdigits : (Nat.toDigits 10 n).all isNamePart = true :=
        List.all_eq_true.2 fun d hd => by simp [isNamePart, Char.isAlphanum, hdigit d hd]
      rw [List.cons_append, isName, List.all_append, ha, has, hdigits]
      rfl
  obtain ⟨d, hd⟩ := List.exists_mem_of_ne_nil _ (Nat.toDigits_ne_nil (n := n) (b := 10))
  have hkeyword : isKeyword (word.toList ++ Nat.toDigits 10 n) = false :=
    isKeyword_eq_false (List.mem_append_right _ hd)
      (isAlpha_of_isNumeralChar (isNumeralChar_of_isDigit (hdigit d hd)))
  have hscan := Scans.name hname hkeyword hc
  have htext : String.ofList (word.toList ++ Nat.toDigits 10 n) = s!"{word}{n}" := by
    rw [← String.toList_inj, String.toList_ofList]
    simp [toString]
  rwa [htext] at hscan

end Dot

open Dot

theorem scans_label {s : String} (h : Legible s) :
    Scans ("[label=".toList ++ ((Dot.value s).toList ++ [']']) ++ ['\n'])
      (.mark '[' :: attributeTokens [("label", s)] ++ [.mark ']']) := by
  have hopen : Scans "[label=".toList [.mark '[', .name "label", .mark '='] := rfl
  have hend : Scans ['\n'] [] := rfl
  have hvalue := Scans.value h.toWordy h.plain ends_bracket
  simpa [attributeTokens] using (hopen.append hvalue).append hend

theorem scans_id (n : Nat) :
    Scans ("n".toList ++ Nat.toDigits 10 n ++ [' ']) [.name s!"n{n}"] :=
  scans_numbered rfl n (ends_blank (by decide))

theorem DiagramItem.scans_line {item : DiagramItem}
    (h : ∀ s ∈ item.statement.values, Legible s) :
    Scans (item.line.toList ++ ['\n']) item.statement.tokens := by
  have hindent : Scans ['\t', '\t'] [] := rfl
  cases item with
  | node id label =>
    have hlabel := scans_label (h label (by simp [statement, Statement.values]))
    have hall := (hindent.append (scans_id id)).append hlabel
    simpa [line, statement, Statement.tokens, toString] using hall
  | edge a b role =>
    have harrow : Scans "-> ".toList [.arrow] := rfl
    have hlabel := scans_label (h role (by simp [statement, Statement.values]))
    have hall := ((hindent.append (scans_id a)).append (harrow.append (scans_id b))).append hlabel
    simpa [line, statement, Statement.tokens, toString] using hall

theorem scans_items {items : List DiagramItem}
    (h : ∀ item ∈ items, ∀ s ∈ item.statement.values, Legible s) :
    Scans (linesText (items.map DiagramItem.line))
      ((items.map DiagramItem.statement).flatMap Statement.tokens) := by
  induction items with
  | nil => rfl
  | cons item items ih =>
    obtain ⟨hitem, hitems⟩ := List.forall_mem_cons.1 h
    exact (DiagramItem.scans_line hitem).append (ih hitems)

theorem Cluster.scans_head (index : Nat) {title : String} (h : Legible title) :
    Scans (linesText [s!"\tsubgraph cluster_{index} \x7b",
        s!"\t\tcolor=gray label={Dot.value title} style=rounded"])
      ([Statement.opening s!"cluster_{index}", .assign "color" "gray", .assign "label" title,
        .assign "style" "rounded"].flatMap Statement.tokens) := by
  have hopen : Scans "\tsubgraph ".toList [.keyword "subgraph"] := rfl
  have hbrace : Scans "\x7b\n\t\tcolor=gray label=".toList
    [.mark '\x7b', .name "color", .mark '=', .name "gray", .name "label", .mark '='] := rfl
  have hstyle : Scans "style=rounded\n".toList [.name "style", .mark '=', .name "rounded"] := rfl
  have hcluster : Scans ("cluster_".toList ++ Nat.toDigits 10 index ++ [' ']) _ :=
    scans_numbered rfl index (ends_blank (by decide))
  have htitle := Scans.value h.toWordy h.plain (ends_blank (c := ' ') (by decide))
  have hall := (((hopen.append hcluster).append hbrace).append htitle).append hstyle
  simpa [linesText, Statement.tokens, toString] using hall

theorem Cluster.scans_lines (index : Nat) {c : Cluster}
    (h : ∀ s ∈ (c.statements index).flatMap Statement.values, Legible s) :
    Scans (linesText (c.lines index)) ((c.statements index).flatMap Statement.tokens) := by
  have htitle : Legible c.title := h _ (by simp [statements, Statement.values])
  have hitems : ∀ item ∈ c.items, ∀ s ∈ item.statement.values, Legible s := by
    intro item hitem s hs
    refine h s (List.mem_flatMap.2 ⟨_, ?_, hs⟩)
    simp only [statements, List.mem_append, List.mem_map]
    exact .inl (.inr ⟨item, hitem, rfl⟩)
  have hclose : Scans "\t\x7d\n".toList [.mark '\x7d'] := rfl
  have hall := ((Cluster.scans_head index htitle).append (scans_items hitems)).append hclose
  simpa [lines, statements, linesText, Statement.tokens] using hall

theorem Diagram.scans_clusterLines {index : Nat} {cs : List Cluster}
    (h : ∀ s ∈ (statementsFrom index cs).flatMap Statement.values, Legible s) :
    Scans (linesText (clusterLines index cs))
      ((statementsFrom index cs).flatMap Statement.tokens) := by
  induction cs generalizing index with
  | nil => rfl
  | cons c cs ih =>
    rw [statementsFrom, List.flatMap_append] at h
    obtain ⟨hc, hcs⟩ := List.forall_mem_append.1 h
    rw [clusterLines, linesText_append, statementsFrom, List.flatMap_append]
    exact (Cluster.scans_lines index hc).append (ih hcs)

theorem Diagram.toList_text (d : Diagram) : d.text.toList = linesText d.lines := by
  simp [text, linesText, List.flatMap_def, Function.comp_def]

theorem Cluster.restores_statements (index : Nat) (c : Cluster) :
    Restores 0 0 (c.statements index) := by
  have hitems : Restores 1 1 (c.items.map DiagramItem.statement) := by
    induction c.items with
    | nil => intro ts; simp
    | cons item items ih =>
      have hitem : Restores 1 1 [item.statement] := by
        cases item with
        | node => exact restores_node 1 _ _
        | edge => exact restores_edge 1 _ _ _
      exact hitem.append ih
  have hopen := restores_opening 0 s!"cluster_{index}"
  have hassign := ((restores_assign 1 "color" "gray").append
    (restores_assign 1 "label" c.title)).append (restores_assign 1 "style" "rounded")
  exact ((hopen.append hassign).append hitems).append (restores_closing 0)

theorem Diagram.restores_statementsFrom (index : Nat) (cs : List Cluster) :
    Restores 0 0 (statementsFrom index cs) := by
  induction cs generalizing index with
  | nil => intro ts; simp [statementsFrom]
  | cons c cs ih => exact (c.restores_statements index).append (ih _)

theorem Diagram.restores_statements (d : Diagram) : Restores 0 0 d.statements := by
  have hgraph := restores_defaults 0 (by decide : "graph" ∈ _) [("rankdir", "TB")]
  have hnode := restores_defaults 0 (by decide : "node" ∈ _)
    [("fontname", "Helvetica"), ("fontsize", "10"), ("shape", "box")]
  exact (hgraph.append hnode).append (restores_statementsFrom 0 d.clusters)

theorem Diagram.scans_preamble :
    Scans (linesText ["digraph \x7b", "\tgraph [rankdir=TB]",
        "\tnode [fontname=Helvetica fontsize=10 shape=box]"])
      (.keyword "digraph" :: .mark '\x7b' :: preamble.flatMap Statement.tokens) := by
  unfold Scans
  decide +kernel

/-- A diagram of legible values is read back from its text. -/
theorem Diagram.read_text {d : Diagram} (h : ∀ s ∈ d.clusterValues, Legible s) :
    Dot.read d.text = some d.statements := by
  have hclose : Scans (linesText ["\x7d"]) [.mark '\x7d'] := rfl
  have hscan : Scans d.text.toList
      (.keyword "digraph" :: .mark '\x7b' ::
        (d.statements.flatMap Statement.tokens ++ [.mark '\x7d'])) := by
    have hall := (scans_preamble.append (scans_clusterLines h)).append hclose
    rw [toList_text, lines, linesText_append, linesText_append]
    simpa [statements, List.flatMap_append] using hall
  have hread := d.restores_statements [.mark '\x7d']
  have hend : Dot.statements 0 none [.mark '\x7d'] = some [] := rfl
  unfold Dot.read
  rw [hscan]
  simpa [hend] using hread

end Kaleidoscope
