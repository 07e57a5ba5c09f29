import Kaleidoscope.Export
import Kaleidoscope.Proofs.Outlines
import Mathlib.Data.List.TakeWhile

/-! Documents tell trees. A reader that finds the fields of a record by their keys gives back the
tree with its positions and its numbers, those included that are kept as text. The numbers left in
a document all have a numeral, so nothing stops the writing of it. -/

set_option autoImplicit false

namespace Kaleidoscope

/-- The numbers that are kept as text. -/
def Double.texts : List Double :=
  [.nan, .signed false (Fin.last infinityRank), .signed true (Fin.last infinityRank)]

namespace Document

@[simp] def text? : Document → Option String
  | .text s => some s
  | _ => none

@[simp] def integer? : Document → Option Int
  | .integer n => some n
  | _ => none

def number? : Document → Option Double
  | .double v => some v
  | .text s => Double.texts.find? (·.written == s)
  | _ => none

def texts? : Document → Option (List String)
  | .list xs => xs.mapM text?
  | _ => none

def field? (key : String) (fields : List (String × Document)) : Option Document :=
  (fields.find? (·.1 == key)).map Prod.snd

def start? (fields : List (String × Document)) : Option Position := do
  let line ← field? "line" fields
  let column ← field? "column" fields
  return ⟨← line.integer?, ← column.integer?⟩

mutual

/-- The tree that a document was made of. The order of the fields makes no difference. -/
def node? : Document → Option Node
  | .record fields => do
    let type ← field? "node_type" fields
    let start ← start? fields
    match ← type.text? with
    | "Number" => return .number (← (← field? "value" fields).number?) start
    | "Variable" => return .var (← (← field? "name" fields).text?) start
    | "BinaryOp" =>
      let operator ← field? "operator" fields
      return .binary (← operator.text?) (← child? "left" fields) (← child? "right" fields) start
    | "Call" =>
      return .call (← (← field? "callee" fields).text?) (← children? "args" fields) start
    | "Prototype" =>
      let params ← field? "params" fields
      return .prototype (← (← field? "name" fields).text?) (← params.texts?) start
    | "Function" => return .function (← child? "proto" fields) (← child? "body" fields) start
    | _ => none
  | _ => none

def child? (key : String) : List (String × Document) → Option Node
  | [] => none
  | (k, x) :: fields => if k = key then x.node? else child? key fields

def children? (key : String) : List (String × Document) → Option (List Node)
  | [] => none
  | (k, x) :: fields => if k = key then x.nodes? else children? key fields

def nodes? : Document → Option (List Node)
  | .list xs => nodesAmong? xs
  | _ => none

def nodesAmong? : List Document → Option (List Node)
  | [] => some []
  | x :: xs => return (← x.node?) :: (← nodesAmong? xs)

end

mutual

def numbers : Document → List Double
  | .double v => [v]
  | .list xs => numbersAmong xs
  | .record fields => numbersUnder fields
  | _ => []

def numbersAmong : List Document → List Double
  | [] => []
  | x :: xs => x.numbers ++ numbersAmong xs

def numbersUnder : List (String × Document) → List Double
  | [] => []
  | (_, x) :: fields => x.numbers ++ numbersUnder fields

end

def Piece.numbers (pieces : List Piece) : List Double :=
  pieces.filterMap fun
    | .text _ => none
    | .number v => some v

@[simp] theorem Piece.numbers_nil : Piece.numbers [] = [] := rfl

@[simp] theorem Piece.numbers_text (s : String) (ps : List Piece) :
    Piece.numbers (.text s :: ps) = Piece.numbers ps := rfl

@[simp] theorem Piece.numbers_append (ps qs : List Piece) :
    Piece.numbers (ps ++ qs) = Piece.numbers ps ++ Piece.numbers qs := List.filterMap_append ..

theorem numbers_enclose (opening closing : String) (depth : Nat) (items : List (List Piece)) :
    Piece.numbers (enclose opening closing depth items) = items.flatMap Piece.numbers := by
  have hjoined : ∀ comma : String,
      Piece.numbers ([Piece.text comma].intercalate items) = items.flatMap Piece.numbers := by
    intro comma
    induction items with
    | nil => rfl
    | cons item items ih =>
      cases items with
      | nil => simp [List.intercalate]
      | cons item' items =>
        rw [List.intercalate_cons_cons, Piece.numbers_append, Piece.numbers_append, ih]
        simp
  unfold enclose
  split
  · next h => simp [List.isEmpty_iff.1 h]
  · simp [hjoined]

mutual

theorem numbers_pieces (depth : Nat) : ∀ d : Document, Piece.numbers (pieces depth d) = d.numbers
  | .null | .text _ | .integer _ | .double _ => rfl
  | .list xs => by
    rw [pieces, numbers_enclose, numbers, numbers_itemPieces]
  | .record fields => by
    rw [pieces, numbers_enclose, numbers, numbers_fieldPieces]

theorem numbers_itemPieces (depth : Nat) : ∀ xs : List Document,
    (itemPieces depth xs).flatMap Piece.numbers = numbersAmong xs
  | [] => rfl
  | x :: xs => by
    rw [itemPieces, List.flatMap_cons, numbers_pieces, numbers_itemPieces, numbersAmong]

theorem numbers_fieldPieces (depth : Nat) : ∀ fields : List (String × Document),
    (fieldPieces depth fields).flatMap Piece.numbers = numbersUnder fields
  | [] => rfl
  | (_, x) :: fields => by
    rw [fieldPieces, List.flatMap_cons, Piece.numbers_text, numbers_pieces, numbers_fieldPieces,
      numbersUnder]

end

theorem write_eq {d : Document} (h : ∀ v ∈ d.numbers, v.isFinite = true) :
    d.write = ⟨d.json, none⟩ := by
  have hfine : ∀ p ∈ d.pieces 0, p.refused? = none := by
    intro p hp
    cases p with
    | text => rfl
    | number v =>
      have hv : v ∈ d.numbers := by
        rw [← numbers_pieces 0 d]
        exact List.mem_filterMap.2 ⟨_, hp, rfl⟩
      simp [Piece.refused?, h v hv]
  have hall : (d.pieces 0).takeWhile (·.refused?.isNone) = d.pieces 0 :=
    List.takeWhile_eq_self_iff.2 fun p hp => by simp [hfine p hp]
  rw [write, hall, List.findSome?_eq_none_iff.2 hfine, json]

end Document

namespace Node

theorem number?_numberDocument (v : Double) : (numberDocument v).number? = some v := by
  unfold numberDocument
  split
  · rfl
  · next h =>
    cases v with
    | nan => decide
    | signed negative rank =>
      have hrank : rank = Fin.last infinityRank := Fin.ext (by simpa [Double.isFinite] using h)
      subst hrank
      cases negative <;> decide

theorem numbers_numberDocument (v : Double) :
    ∀ v' ∈ (numberDocument v).numbers, v'.isFinite = true := by
  unfold numberDocument
  split
  · next h => exact List.forall_mem_singleton.2 h
  · exact fun v' hv => absurd hv List.not_mem_nil

theorem texts?_ofTexts (texts : List String) :
    (Document.list (texts.map .text)).texts? = some texts := by
  unfold Document.texts?
  induction texts with
  | nil => rfl
  | cons s texts ih => simp [ih]

theorem nodesAmong?_contents {ns : List Node} (h : ∀ n ∈ ns, n.content.node? = some n) :
    Document.nodesAmong? (contents ns) = some ns := by
  induction ns with
  | nil => rfl
  | cons n ns ih =>
    obtain ⟨hn, hns⟩ := List.forall_mem_cons.1 h
    rw [contents, Document.nodesAmong?, hn, ih hns]
    rfl

theorem IsOperand.node?_content {n : Node} (h : n.IsOperand) : n.content.node? = some n := by
  induction h with
  | number =>
    simp [content, record, Document.node?, Document.field?, Document.start?,
      number?_numberDocument]
  | var => simp [content, record, Document.node?, Document.field?, Document.start?]
  | binary _ _ ihl ihr =>
    simp [content, record, Document.node?, Document.field?, Document.start?, Document.child?,
      ihl, ihr]
  | call _ ih =>
    simp [content, record, Document.node?, Document.field?, Document.start?, Document.children?,
      Document.nodes?, nodesAmong?_contents ih]

theorem IsRegular.node?_content {n : Node} (h : n.IsRegular) : n.content.node? = some n := by
  cases h with
  | operand hn => exact hn.node?_content
  | prototype =>
    simp [content, record, Document.node?, Document.field?, Document.start?, texts?_ofTexts]
  | function hb =>
    simp [content, record, Document.node?, Document.field?, Document.start?, Document.child?,
      texts?_ofTexts, hb.node?_content]

mutual

theorem numbers_content : ∀ n : Node, ∀ v ∈ n.content.numbers, v.isFinite = true
  | .missing | .bare .. | .textual .. | .var .. => by
    simp [content, record, Document.numbers, Document.numbersUnder]
  | .number v start => by
    have hv := numbers_numberDocument v
    simpa [content, record, Document.numbers, Document.numbersUnder] using hv
  | .binary operator left right start => by
    have hl := numbers_content left
    have hr := numbers_content right
    simpa [content, record, Document.numbers, Document.numbersUnder, or_imp, forall_and] using
      ⟨hl, hr⟩
  | .call callee args start => by
    have hargs := numbers_contents args
    simpa [content, record, Document.numbers, Document.numbersUnder] using hargs
  | .prototype name params start => by
    have hparams : Document.numbersAmong (params.map .text) = [] := by
      induction params with
      | nil => rfl
      | cons p params ih => simpa [Document.numbersAmong, Document.numbers] using ih
    simp [content, record, Document.numbers, Document.numbersUnder, hparams]
  | .function proto body start => by
    have hp := numbers_content proto
    have hb := numbers_content body
    simpa [content, record, Document.numbers, Document.numbersUnder, or_imp, forall_and] using
      ⟨hp, hb⟩

theorem numbers_contents : ∀ ns : List Node,
    ∀ v ∈ Document.numbersAmong (contents ns), v.isFinite = true
  | [] => by simp [contents, Document.numbersAmong]
  | n :: ns => by
    have hn := numbers_content n
    have hns := numbers_contents ns
    simpa [contents, Document.numbersAmong, or_imp, forall_and] using ⟨hn, hns⟩

end

theorem IsRegular.document_eq {n : Node} (h : n.IsRegular) : n.document = .ok n.content := by
  rw [document, h.flawless.document, unlessDefective_none]

end Node

def dumpReport (path : String) : Except PathError Unit → Print
  | .error e => .line .diagnostics s!"Failed to write AST JSON to {path}: {e.message}"
  | .ok () => .line .diagnostics s!"Wrote AST JSON to {path}"

theorem write_dumpDocument (trees : List Node) :
    (dumpDocument trees).write = ⟨(dumpDocument trees).json, none⟩ :=
  Document.write_eq (Node.numbers_contents trees)

theorem dump_eq {m : Type → Type} [Monad m] (disk : Disk m) (path : String) (trees : List Node) :
    dump disk path trees =
      (do return dumpReport path (← disk.write path (dumpDocument trees).json)) := by
  unfold dump
  rw [write_dumpDocument]
  refine congrArg (disk.write path _ >>= ·) (funext fun written => ?_)
  rcases written with e | ⟨⟩ <;> rfl

theorem Setup.exists_regular (setup : Setup) (g : Grammar) (hg : setup.grammar = .ok g)
    (text : String) :
    ∃ run, setup.Runs text run ∧ ∀ n ∈ Event.nodes run.events, n.IsRegular := by
  obtain ⟨run, hr, hall⟩ := setup.exists_wellFormedAs hg text
  refine ⟨run, hr, fun n hn => ?_⟩
  obtain ⟨kind, h⟩ := hall n hn
  exact h.isRegular

/-- Documents are lossless and strict. One reader gives back every regular tree, positions and
numbers included, so different trees have different documents; and whatever the text, the table and
the depth allowed, no number keeps the trees of a program from being dumped, and the dump can be
read back. -/
theorem Node.document_lossless :
    (∀ n : Node, n.IsRegular → ∃ d, n.document = .ok d ∧ d.node? = some n ∧
      ∀ v ∈ d.numbers, v.isFinite = true) ∧
    (∀ n n' : Node, n.IsRegular → n'.IsRegular → n.document = n'.document → n = n') ∧
    ∀ (setup : Setup) (g : Grammar), setup.grammar = .ok g → ∀ text : String,
      ∃ run, setup.Runs text run ∧
        let trees := Event.nodes run.events
        (∀ n ∈ trees, n.IsRegular) ∧ (dumpDocument trees).nodes? = some trees ∧
        (dumpDocument trees).write = ⟨(dumpDocument trees).json, none⟩ ∧
        ∀ {m : Type → Type} [Monad m] (disk : Disk m) (path : String),
          dump disk path trees =
            (do return dumpReport path (← disk.write path (dumpDocument trees).json)) := by
  refine ⟨fun n h => ⟨_, h.document_eq, h.node?_content, n.numbers_content⟩, ?_, ?_⟩
  · intro n n' h h' he
    rw [h.document_eq, h'.document_eq] at he
    have hread := h.node?_content
    rw [Except.ok.inj he, h'.node?_content] at hread
    exact (Option.some.inj hread).symm
  · intro setup g hg text
    obtain ⟨run, hr, hreg⟩ := setup.exists_regular g hg text
    have hread := nodesAmong?_contents fun n hn => (hreg n hn).node?_content
    exact ⟨run, hr, hreg, hread, write_dumpDocument _, fun disk path => dump_eq disk path _⟩

theorem Node.document_lossless_extremes :
    let infinity (negative : Bool) : Double := .signed negative (Fin.last infinityRank)
    let tree : Node := .function (.prototype "\"" ["", "\n"] ⟨-1, 0⟩)
      (.call "Number"
        [.number (.signed true 0) ⟨2, 3⟩, .number (.signed false 0) ⟨2, 3⟩,
          .binary "inf" (.number (infinity true) {}) (.number (infinity false) {}) ⟨0, -7⟩] {}) {}
    let numeral := '1' :: List.replicate 309 '0'
    tree.IsRegular ∧ (∃ d, tree.document = .ok d ∧ d.node? = some tree ∧
      ∀ v ∈ d.numbers, v.isFinite = true) ∧
    readNumeral? numeral = some (infinity false) ∧ ({} : Setup).grammar = .ok {} ∧
    ∃ run, ({} : Setup).Runs (String.ofList numeral) run ∧
      (dumpDocument (Event.nodes run.events)).write =
        ⟨(dumpDocument (Event.nodes run.events)).json, none⟩ := by
  intro infinity tree numeral
  have htree : tree.IsRegular := by
    refine .function (.call fun a ha => ?_)
    simp only [List.mem_cons, List.not_mem_nil, or_false] at ha
    rcases ha with rfl | rfl | rfl
    · exact .number
    · exact .number
    · exact .binary .number .number
  obtain ⟨hread, -, hdump⟩ := Node.document_lossless
  have hg : ({} : Setup).grammar = .ok {} := rfl
  obtain ⟨run, hr, -, -, hw, -⟩ := hdump {} {} hg (String.ofList numeral)
  exact ⟨htree, hread tree htree, by decide +kernel, hg, run, hr, hw⟩

end Kaleidoscope
