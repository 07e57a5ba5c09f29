import Kaleidoscope.Proofs.Preorder
import Kaleidoscope.Proofs.Printing
import Kaleidoscope.Proofs.WellFormed

/-! Outlines that are moved in. An outline has a line for each node, in preorder. How far in a line
stands and what it is labelled with depend on the way to the node alone, so an indentation moves
all lines alike, and a label shows in the first line only. -/

set_option autoImplicit false

namespace Kaleidoscope

def OneLine (text : String) : Prop := '\n' ∉ text.toList

instance (text : String) : Decidable (OneLine text) :=
  inferInstanceAs (Decidable ('\n' ∉ text.toList))

theorem notMem_append {c : Char} {s t : String} (hs : c ∉ s.toList) (ht : c ∉ t.toList) :
    c ∉ (s ++ t).toList := by
  rw [String.toList_append]
  exact fun h => (List.mem_append.1 h).elim hs ht

theorem notMem_intercalate {c : Char} {separator : String} {parts : List String}
    (hs : c ∉ separator.toList) (hp : ∀ p ∈ parts, c ∉ p.toList) :
    c ∉ (separator.intercalate parts).toList := by
  induction parts with
  | nil => simp
  | cons p parts ih =>
    obtain ⟨hfirst, hrest⟩ := List.forall_mem_cons.1 hp
    cases parts with
    | nil => rwa [String.intercalate_singleton]
    | cons p' parts =>
      rw [String.intercalate_cons_cons]
      exact notMem_append (notMem_append hfirst hs) (ih hrest)

theorem OneLine.append {s t : String} (hs : OneLine s) (ht : OneLine t) : OneLine (s ++ t) :=
  notMem_append hs ht

theorem Inked.oneLine {s : String} (h : Inked s.toList) : OneLine s :=
  fun hmem => absurd (h _ hmem) (by decide)

theorem oneLine_margin (indent : Int) : OneLine (Node.margin indent) := by
  rw [OneLine, Node.margin, String.toList_ofList]
  exact fun h => absurd (List.eq_of_mem_replicate h) (by decide)

theorem OneLine.enclosed {first inner last : String} (hf : OneLine first) (hi : OneLine inner)
    (hl : OneLine last) : OneLine (first ++ inner ++ last) := (hf.append hi).append hl

theorem OneLine.line {indent : Int} {label text : String} (ht : OneLine text)
    (hl : OneLine label) : OneLine (Node.margin indent ++ label ++ text) :=
  (oneLine_margin indent).enclosed hl ht

theorem oneLine_argumentRole (i : Nat) : OneLine (Node.argumentRole i ++ ": ") := by
  have hdigits : Inked (Nat.repr i).toList := by
    rw [Nat.repr, String.toList_ofList]
    exact inked_toDigits i
  have hrole : OneLine (Node.argumentRole i) := .enclosed (by decide) hdigits.oneLine (by decide)
  exact hrole.append (by decide)

def indentation (line : String) : Nat := (line.toList.takeWhile (· == ' ')).length

theorem indentation_eq {text : String} (h : text.toList.head? ≠ some ' ') (indent : Int) :
    indentation (Node.margin indent ++ text) = indent.toNat := by
  have hspaces : ∀ c ∈ List.replicate indent.toNat ' ', (c == ' ') = true := by
    intro c hc
    rw [List.eq_of_mem_replicate hc]
    rfl
  have hstop : text.toList.takeWhile (· == ' ') = [] := by
    cases ht : text.toList with
    | nil => rfl
    | cons c cs =>
      rw [ht] at h
      have hc : (c == ' ') = false := by simpa using h
      simp only [List.takeWhile, hc]
  rw [indentation, Node.margin, String.toList_append, String.toList_ofList,
    List.takeWhile_append_of_pos hspaces, hstop, List.append_nil, List.length_replicate]

namespace Text

def lines (text : String) : List String := (text.toList.splitOn '\n').map String.ofList

/-- The text with a label in front of its first line, and spaces in front of every line. -/
def movedIn (indent : Nat) (label text : String) : String :=
  "\n".intercalate (((lines text).modifyHead (label ++ ·)).map (Node.margin indent ++ ·))

theorem lines_intercalate {ls : List String} (h : ∀ line ∈ ls, OneLine line) (hne : ls ≠ []) :
    lines ("\n".intercalate ls) = ls := by
  have hfeed : ∀ cs ∈ ls.map String.toList, '\n' ∉ cs := List.forall_mem_map.2 h
  have hsplit := List.splitOn_intercalate '\n' hfeed (by simpa using hne)
  rw [lines, String.toList_intercalate]
  exact (congrArg (List.map String.ofList) hsplit).trans (by simp)

end Text

namespace Node

def gap : Node → Nat
  | .call .. => 4
  | _ => 2

/-- How much further in than the root the node at the end of a way stands. -/
def inset : Node → List Nat → Nat
  | _, [] => 0
  | n, k :: way => n.gap + (n.parts.getD k .missing).inset way

/-- What the node at the end of a way is labelled with: its role, if it is not the root. -/
def caption : Node → String → List Nat → String
  | _, label, [] => label
  | n, _, k :: way => (n.parts.getD k .missing).caption (n.role k ++ ": ") way

def lineOf (n : Node) (indent : Int) (label : String) (v : Visit) : String :=
  margin (indent + n.inset v.way) ++ n.caption label v.way ++ v.node.headline

def linesUnder (n : Node) (indent : Int) (k : Nat) : List Node → List String
  | [] => []
  | c :: cs => c.lines (indent + n.gap) (n.role k ++ ": ") ++ n.linesUnder indent (k + 1) cs

theorem argumentLines_eq (callee : String) (args cs : List Node) (start : Position) (indent : Int)
    (k : Nat) : argumentLines (indent + 4) k cs =
      (call callee args start).linesUnder indent k cs := by
  induction cs generalizing k with
  | nil => rw [argumentLines, linesUnder]
  | cons c cs ih =>
    rw [argumentLines, linesUnder, ih]
    rfl

theorem lines_cons (n : Node) (indent : Int) (label : String) :
    n.lines indent label =
      (margin indent ++ label ++ n.headline) :: n.linesUnder indent 0 n.parts := by
  cases n with
  | call callee args start => rw [lines, argumentLines_eq]; rfl
  | _ => simp [lines, linesUnder, parts, gap, role]

theorem lineOf_root (n m : Node) (indent : Int) (label : String) :
    n.lineOf indent label ⟨[], m⟩ = margin indent ++ label ++ m.headline := by
  rw [lineOf, inset, caption, Int.natCast_zero, Int.add_zero]

theorem lineOf_under {n c : Node} {k : Nat} (hc : n.parts[k]? = some c) (indent : Int)
    (label : String) (v : Visit) :
    n.lineOf indent label (v.under k) = c.lineOf (indent + n.gap) (n.role k ++ ": ") v := by
  have hpart : n.parts.getD k .missing = c := by rw [List.getD_eq_getElem?_getD, hc]; rfl
  rw [lineOf, lineOf, Visit.under, inset, caption, hpart]
  push_cast
  rw [Int.add_assoc]

theorem linesUnder_eq_map {n : Node} {cs : List Node} {k : Nat}
    (h : ∀ c ∈ cs, ∀ indent label, c.lines indent label = (c.visits []).map (c.lineOf indent label))
    (indent : Int) (label : String) (hcs : n.parts.drop k = cs) :
    n.linesUnder indent k cs = (visitsFrom [] k cs).map (n.lineOf indent label) := by
  induction cs generalizing k with
  | nil => rfl
  | cons c cs ih =>
    obtain ⟨hc, hrest⟩ := List.forall_mem_cons.1 h
    have hk : n.parts[k]? = some c := by
      rw [← List.head?_drop, hcs, List.head?_cons]
    have htail : n.parts.drop (k + 1) = cs := by
      rw [← List.tail_drop, hcs, List.tail_cons]
    have hfirst : (c.visits [k]).map (n.lineOf indent label) =
        (c.visits []).map (c.lineOf (indent + n.gap) (n.role k ++ ": ")) := by
      rw [visits_under, List.map_map]
      exact List.map_congr_left fun v _ => lineOf_under hk indent label v
    rw [linesUnder, visitsFrom, List.map_append, ih hrest htail, List.nil_append, hfirst, hc]

/-- The outline has a line for each node, in preorder. A child is the root of an outline of its
own, further in and under its role, so the induction is over all indentations and labels. -/
theorem lines_eq_map (n : Node) (indent : Int) (label : String) :
    n.lines indent label = (n.visits []).map (n.lineOf indent label) := by
  induction n using induct_parts generalizing indent label with
  | step n ih =>
    have hunder := linesUnder_eq_map (n := n) (k := 0) ih indent label rfl
    rw [lines_cons, visits_eq, List.map_cons, hunder, lineOf_root]

theorem margin_add (a b : Nat) : margin ((a : Int) + b) = margin a ++ margin b := by
  rw [← String.toList_inj, String.toList_append]
  simp only [margin, String.toList_ofList, List.replicate_append_replicate, ← Int.natCast_add,
    Int.toNat_natCast]

theorem lineOf_below (n : Node) (indent : Nat) (label : String) {v : Visit} (hv : v.way ≠ []) :
    n.lineOf indent label v = margin indent ++ n.lineOf 0 "" v := by
  obtain ⟨way, node⟩ := v
  cases way with
  | nil => exact absurd rfl hv
  | cons k way =>
    rw [lineOf, lineOf, Int.zero_add, margin_add, caption, caption, String.append_assoc,
      String.append_assoc, String.append_assoc]

theorem lines_movedIn (n : Node) (indent : Nat) (label : String) :
    n.lines indent label = ((n.lines 0 "").modifyHead (label ++ ·)).map (margin indent ++ ·) := by
  have hbelow : (visitsFrom [] 0 n.parts).map (n.lineOf indent label) =
      ((visitsFrom [] 0 n.parts).map (n.lineOf 0 "")).map (margin indent ++ ·) := by
    rw [List.map_map]
    exact List.map_congr_left fun v hv => n.lineOf_below indent label (way_ne_nil hv)
  rw [lines_eq_map, lines_eq_map, visits_eq, List.map_cons, List.map_cons, List.modifyHead_cons,
    List.map_cons, hbelow, lineOf_root, lineOf_root, String.append_assoc]
  rfl

theorem head_role (n : Node) (k : Nat) :
    ∃ c, (n.role k ++ ": ").toList.head? = some c ∧ c ≠ ' ' := by
  cases n with
  | call => exact ⟨'a', by simp [role, argumentRole, toString], by decide⟩
  | binary | function => by_cases hk : k = 0 <;> simp [role, hk]
  | _ => simp [role]

theorem head_caption (n : Node) (label : String) (k : Nat) (way : List Nat) :
    ∃ c, (n.caption label (k :: way)).toList.head? = some c ∧ c ≠ ' ' := by
  induction way generalizing n label k with
  | nil => exact n.head_role k
  | cons j way ih => exact ih _ (n.role k ++ ": ") j

theorem indentation_lineOf (n : Node) (indent : Nat) (label : String) {v : Visit}
    (hv : v.way ≠ []) : indentation (n.lineOf indent label v) = indent + n.inset v.way := by
  obtain ⟨k, way, hway⟩ := List.exists_cons_of_ne_nil hv
  obtain ⟨c, hhead, hc⟩ := n.head_caption label k way
  have htext : (n.caption label v.way ++ v.node.headline).toList.head? ≠ some ' ' := by
    rw [String.toList_append, List.head?_append, hway, hhead]
    simpa using hc
  rw [lineOf, String.append_assoc, indentation_eq htext, ← Int.natCast_add, Int.toNat_natCast]

theorem inset_pos (n : Node) {way : List Nat} (h : way ≠ []) : 0 < n.inset way := by
  obtain ⟨k, way, rfl⟩ := List.exists_cons_of_ne_nil h
  have hgap : 0 < n.gap := by cases n <;> exact Nat.succ_pos _
  rw [inset]
  omega

theorem lt_indentation_lineOf (n : Node) (indent : Nat) (label : String) :
    ∀ line ∈ ((n.visits []).map (n.lineOf indent label)).tail, indent < indentation line := by
  intro line hline
  rw [visits_eq, List.map_cons, List.tail_cons] at hline
  obtain ⟨v, hv, rfl⟩ := List.mem_map.1 hline
  have hpos := n.inset_pos (way_ne_nil hv)
  rw [indentation_lineOf n indent label (way_ne_nil hv)]
  omega

def names : Node → List String
  | .var name _ => [name]
  | .binary operator .. => [operator]
  | .call callee .. => [callee]
  | .prototype name params _ => name :: params
  | _ => []

/-- No name and no operator in the tree breaks a line. -/
def Unbroken (n : Node) : Prop := ∀ v ∈ n.visits [], ∀ name ∈ v.node.names, OneLine name

instance (n : Node) : Decidable n.Unbroken :=
  inferInstanceAs (Decidable (∀ v ∈ n.visits [], ∀ name ∈ v.node.names, OneLine name))

namespace Unbroken

variable {n : Node}

theorem names (h : n.Unbroken) : ∀ name ∈ n.names, OneLine name :=
  h ⟨[], n⟩ (by rw [visits_eq]; exact List.mem_cons_self)

theorem parts (h : n.Unbroken) : ∀ c ∈ n.parts, c.Unbroken := by
  intro c hc v hv
  obtain ⟨j, hj⟩ := List.mem_iff_getElem?.1 hc
  have hunder : v.under j ∈ visitsFrom [] 0 n.parts := by
    refine mem_visitsFrom.2 ⟨j, c, hj, ?_⟩
    rw [List.nil_append, Nat.zero_add, visits_under]
    exact List.mem_map_of_mem hv
  exact h (v.under j) (by rw [visits_eq]; exact List.mem_cons_of_mem _ hunder)

theorem oneLine_shownName (h : n.Unbroken) : OneLine n.shownName := by
  cases n with
  | var name start => exact h.names name (by simp [Node.names])
  | prototype name params start => exact h.names name (by simp [Node.names])
  | _ => exact (by decide : OneLine "")

theorem oneLine_headline (h : n.Unbroken) : OneLine n.headline := by
  have hnames := h.names
  cases n with
  | missing | bare | textual => exact (by decide : OneLine "")
  | number => exact .enclosed (by decide) (Double.inked_numeral _).oneLine (by decide)
  | var name => exact .enclosed (by decide) (hnames name (by simp [Node.names])) (by decide)
  | binary operator =>
    exact .enclosed (by decide) (hnames operator (by simp [Node.names])) (by decide)
  | call callee => exact .enclosed (by decide) (hnames callee (by simp [Node.names])) (by decide)
  | prototype name params start =>
    obtain ⟨hname, hparams⟩ := List.forall_mem_cons.1 hnames
    have hlist : OneLine (", ".intercalate params) := notMem_intercalate (by decide) hparams
    exact .enclosed (.enclosed (by decide) hname (by decide)) hlist (by decide)
  | function proto body start =>
    have hproto := h.parts proto (by simp [Node.parts])
    exact .enclosed (by decide) hproto.oneLine_shownName (by decide)

end Unbroken

theorem oneLine_role (n : Node) (k : Nat) : OneLine (n.role k ++ ": ") := by
  cases n with
  | call => exact oneLine_argumentRole k
  | binary | function => by_cases hk : k = 0 <;> simp [role, hk, OneLine]
  | _ => simp [role, OneLine]

theorem oneLine_caption (n : Node) {label : String} (hl : OneLine label) (way : List Nat) :
    OneLine (n.caption label way) := by
  induction way generalizing n label with
  | nil => exact hl
  | cons k way ih => exact ih _ (n.oneLine_role k)

theorem Unbroken.oneLine_lines {n : Node} (h : n.Unbroken) (indent : Int) {label : String}
    (hl : OneLine label) : ∀ line ∈ n.lines indent label, OneLine line := by
  have hall : ∀ v ∈ n.visits [], v.node.Unbroken := forall_visits (fun _ hn => hn.parts) h
  rw [lines_eq_map]
  refine List.forall_mem_map.2 fun v hv => ?_
  exact (hall v hv).oneLine_headline.line (n.oneLine_caption hl v.way)

theorem Unbroken.lines_text {n : Node} (h : n.Unbroken) (indent : Int) {label : String}
    (hl : OneLine label) :
    Text.lines ("\n".intercalate (n.lines indent label)) = n.lines indent label := by
  refine Text.lines_intercalate (h.oneLine_lines indent hl) ?_
  rw [lines_cons]
  exact List.cons_ne_nil _ _

/-- An outline at an indentation is the outline itself moved in, with the label in front of what
its first line says. There is one line for each node, in preorder, and those after the first stand
further in. -/
theorem outlineAt_movedIn (n : Node) (hn : n.IsRegular) (hw : n.Unbroken) (indent : Nat)
    (label : String) (hl : OneLine label) :
    ∃ text, n.outline = .ok text ∧
      n.outlineAt indent label = .ok (Text.movedIn indent label text) ∧
      Text.lines (Text.movedIn indent label text) =
        (n.visits []).map (n.lineOf indent label) ∧
      (Text.lines (Text.movedIn indent label text)).length = n.count ∧
      ∀ line ∈ (Text.lines (Text.movedIn indent label text)).tail, indent < indentation line := by
  have hmoved : Text.movedIn indent label ("\n".intercalate (n.lines 0 "")) =
      "\n".intercalate (n.lines indent label) := by
    rw [Text.movedIn, hw.lines_text 0 (by decide), ← lines_movedIn]
  have hlines : Text.lines ("\n".intercalate (n.lines indent label)) =
      (n.visits []).map (n.lineOf indent label) := by
    rw [hw.lines_text indent hl, lines_eq_map]
  refine ⟨_, hn.flawless.outlineAt_eq 0 "", ?_, ?_, ?_, ?_⟩
  · rw [hn.flawless.outlineAt_eq, hmoved]
  · rw [hmoved, hlines]
  · rw [hmoved, hlines, List.length_map, length_visits]
  · rw [hmoved, hlines]
    exact n.lt_indentation_lineOf indent label

theorem outlineAt_movedIn_nested :
    let tree : Node := .function (.prototype " f" ["x", "\r"] {})
      (.binary "(" (.call "g" [.binary "\\" (.number .nan {}) (.var "" {}) {}, .call "h" [] {}] {})
        (.number (.signed true 0) {}) {}) {}
    tree.IsRegular ∧ tree.Unbroken ∧ OneLine " then " ∧
      ∃ text, tree.outline = .ok text ∧
        tree.outlineAt (3 : Nat) " then " = .ok (Text.movedIn 3 " then " text) ∧
        Text.lines (Text.movedIn 3 " then " text) =
          ["    then Function( f)",
           "     proto: Prototype( f, params=[x, \r])",
           "     body: BinaryOp(()",
           "       left: Call(g)",
           "           arg[0]: BinaryOp(\\)",
           "             left: Number(nan)",
           "             right: Variable()",
           "           arg[1]: Call(h)",
           "       right: Number(0)"] ∧
        (Text.lines (Text.movedIn 3 " then " text)).length = 9 ∧
        ∀ line ∈ (Text.lines (Text.movedIn 3 " then " text)).tail, 3 < indentation line := by
  intro tree
  have hn : tree.IsRegular := by
    refine .function (.binary (.call fun a ha => ?_) .number)
    simp only [List.mem_cons, List.not_mem_nil, or_false] at ha
    rcases ha with rfl | rfl
    · exact .binary .number .var
    · exact .call (by simp)
  have hw : tree.Unbroken := by decide +kernel
  have hl : OneLine " then " := by decide
  obtain ⟨text, ho, hm, hlines, hlength, hfurther⟩ := outlineAt_movedIn tree hn hw 3 " then " hl
  refine ⟨hn, hw, hl, text, ho, hm, ?_, hlength, hfurther⟩
  rw [hlines]
  decide +kernel

end Node

end Kaleidoscope
