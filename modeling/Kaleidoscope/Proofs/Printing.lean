import Kaleidoscope.Node.Surface
import Kaleidoscope.Proofs.Lexemes

/-! Printed trees divide into the lexemes that the printer puts together. The names, operators and
numbers in them have to be lexemes themselves. -/

set_option autoImplicit false

namespace Kaleidoscope

def Inked (cs : List Char) : Prop := ∀ c ∈ cs, isInk c = true

/-- Digits, points, signs, exponents, and the letters of `inf` and `nan`. -/
def isNumberPart (c : Char) : Bool :=
  c.isDigit || ['.', '-', '+', 'e', 'i', 'n', 'f', 'a'].contains c

theorem isInk_of_isNumberPart {c : Char} (h : isNumberPart c = true) : isInk c = true := by
  simp only [isNumberPart, Bool.or_eq_true, List.contains_iff_mem] at h
  rcases h with h | h
  · exact isInk_of_isDigit h
  · exact List.all_eq_true.1
      (by decide : ['.', '-', '+', 'e', 'i', 'n', 'f', 'a'].all isInk = true) c h

def NumberText (cs : List Char) : Prop := ∀ c ∈ cs, isNumberPart c = true

instance (cs : List Char) : Decidable (NumberText cs) :=
  List.decidableBAll _ cs

theorem NumberText.append {cs ds : List Char} (h : NumberText cs) (h' : NumberText ds) :
    NumberText (cs ++ ds) := List.forall_mem_append.2 ⟨h, h'⟩

theorem NumberText.cons {c : Char} {cs : List Char} (hc : isNumberPart c = true)
    (h : NumberText cs) : NumberText (c :: cs) := List.forall_mem_cons.2 ⟨hc, h⟩

theorem NumberText.subset {cs ds : List Char} (h : NumberText cs) (hs : ds ⊆ cs) : NumberText ds :=
  fun c hc => h c (hs hc)

theorem numberText_toDigits (n : Nat) : NumberText (Nat.toDigits 10 n) := by
  intro c hc
  have hdigit : c.isDigit = true := Nat.isDigit_of_mem_toDigits (by decide) (by decide) hc
  simp [isNumberPart, hdigit]

theorem inked_toDigits (n : Nat) : Inked (Nat.toDigits 10 n) := fun c hc =>
  isInk_of_isNumberPart (numberText_toDigits n c hc)

namespace Decimal

theorem numberText_zeros (n : Int) : NumberText (zeros n) := by
  intro c hc
  rw [List.eq_of_mem_replicate hc]
  decide

theorem numberText_dropTrailingZeros {digits : List Char} (h : NumberText digits) :
    NumberText (dropTrailingZeros digits) := by
  refine h.subset fun c hc => ?_
  have hc := (List.dropWhile_sublist _).subset (List.mem_reverse.1 hc)
  exact List.mem_reverse.1 hc

theorem numberText_positional {digits : List Char} (h : NumberText digits) (lead : Int) :
    NumberText (positional digits lead) := by
  unfold positional
  split
  · exact .cons (by decide) (.cons (by decide) ((numberText_zeros _).append h))
  · have hwhole := h.subset (List.take_subset (lead.toNat + 1) digits)
    have hfraction := h.subset (List.drop_subset (lead.toNat + 1) digits)
    refine (hwhole.append (numberText_zeros _)).append (.cons (by decide) ?_)
    split
    · decide
    · exact hfraction

theorem numberText_scientific {digits : List Char} (h : NumberText digits) (lead : Int) :
    NumberText (scientific digits lead) := by
  have hexp : NumberText (signedExponent lead) := by
    unfold signedExponent
    refine .append (.cons ?_ (numberText_zeros _)) (numberText_toDigits _)
    split <;> decide
  cases digits with
  | nil => exact h
  | cons d ds =>
    have hds := (List.forall_mem_cons.1 h).2
    refine .append (.cons ((List.forall_mem_cons.1 h).1) ?_) (.cons (by decide) hexp)
    split
    · decide
    · exact .cons (by decide) hds

theorem numberText_written (x : Decimal) : NumberText x.written := by
  have hdigits := numberText_dropTrailingZeros (numberText_toDigits x.coefficient)
  unfold written
  split
  · decide
  · simp only
    split
    · exact numberText_positional hdigits _
    · exact numberText_scientific hdigits _

end Decimal

namespace Double

theorem numberText_withSign {cs : List Char} (h : NumberText cs) (negative : Bool) :
    NumberText (withSign negative cs) := by
  unfold withSign
  split
  · exact .cons (by decide) h
  · exact h

theorem numberText_writtenRank (rank : Nat) : NumberText (writtenRank rank) := by
  unfold writtenRank
  split
  · decide
  · split
    · decide
    · exact Decimal.numberText_written _

theorem numberText_numeral (v : Double) : NumberText v.numeral.toList := by
  cases v with
  | nan => decide
  | signed negative rank =>
    simp only [numeral]
    split
    · rw [String.toList_ofList]
      exact numberText_withSign (numberText_toDigits _) _
    · rw [written, String.toList_ofList]
      exact numberText_withSign (numberText_writtenRank rank) negative

theorem inked_numeral (v : Double) : Inked v.numeral.toList := fun c hc =>
  isInk_of_isNumberPart (v.numberText_numeral c hc)

end Double

/-- A name is a letter with letters and digits behind it, and no keyword. -/
structure IsName (s : String) : Prop where
  spelled : ∃ c cs, s.toList = c :: cs ∧ c.isAlpha = true ∧ ∀ a ∈ cs, a.isAlphanum = true
  notDefine : s ≠ "def"
  notExternal : s ≠ "extern"

/-- An operator is a character of positive level that is scanned as a token of its own. -/
structure Grammar.IsOperator (g : Grammar) (s : String) : Prop where
  level : ∃ c, s.toList = [c] ∧ 0 < g.precedence.level c
  scanned : ∃ start finish, lex s = [⟨.character, .text s, start, s⟩, .endOfInput finish]

/-- A number is printed as one numeral that reads back as the number. -/
def IsNumeral (v : Double) : Prop :=
  ∃ t v' finish, lex v.numeral = [t, .endOfInput finish] ∧ t.kind = .number ∧
    t.payload = .number v' ∧ v.same v' = true

inductive Grammar.IsExpression (g : Grammar) : Node → Prop where
  | number {v : Double} {start : Position} : IsNumeral v → IsExpression g (.number v start)
  | var {name : String} {start : Position} : IsName name → IsExpression g (.var name start)
  | binary {operator : String} {left right : Node} {start : Position} : g.IsOperator operator →
      IsExpression g left → IsExpression g right →
      IsExpression g (.binary operator left right start)
  | call {callee : String} {args : List Node} {start : Position} : IsName callee →
      (∀ a ∈ args, IsExpression g a) → IsExpression g (.call callee args start)

namespace Node

mutual

def height : Node → Nat
  | .binary _ left right _ => max left.height right.height + 1
  | .call _ args _ => heightAmong args + 1
  | _ => 1

def heightAmong : List Node → Nat
  | [] => 0
  | a :: as => max a.height (heightAmong as)

end

theorem height_le_heightAmong {args : List Node} {a : Node} (h : a ∈ args) :
    a.height ≤ heightAmong args := by
  induction args with
  | nil => cases h
  | cons b args ih =>
    simp only [heightAmong]
    obtain rfl | h := List.mem_cons.1 h
    · omega
    · have := ih h
      omega

mutual

def words : Node → List (List Char)
  | .number v _ => [v.numeral.toList]
  | .var name _ => [name.toList]
  | .binary operator left right _ =>
    ['('] :: (words left ++ operator.toList :: (words right ++ [[')']]))
  | .call callee args _ =>
    callee.toList :: ['('] :: ([[',']].intercalate (wordsAmong args) ++ [[')']])
  | .prototype name params _ => name.toList :: ['('] :: (params.map String.toList ++ [[')']])
  | .function proto body _ =>
    if proto.isAnonymous then words body else ['d', 'e', 'f'] :: (words proto ++ words body)
  | _ => []

def wordsAmong : List Node → List (List (List Char))
  | [] => []
  | a :: as => words a :: wordsAmong as

end

def constructKind : Node → ConstructKind
  | .prototype .. => .external
  | .function proto _ _ => if proto.isAnonymous then .expression else .definition
  | _ => .expression

end Node

/-- The trees of whole constructs, with bodies that are no higher than expressions may nest. -/
inductive Grammar.IsConstruct (g : Grammar) : Node → Prop where
  | prototype {name : String} {params : List String} {start : Position} : IsName name →
      (∀ p ∈ params, IsName p) → IsConstruct g (.prototype name params start)
  | definition {name : String} {params : List String} {body : Node} {start start' : Position} :
      IsName name → (∀ p ∈ params, IsName p) → g.IsExpression body →
      (body.height : Int) ≤ g.maxDepth →
      IsConstruct g (.function (.prototype name params start) body start')
  | anonymous {body : Node} {start start' : Position} : g.IsExpression body →
      (body.height : Int) ≤ g.maxDepth →
      IsConstruct g (.function (.prototype Node.anonymousName [] start) body start')

theorem IsName.isLexeme {s : String} (h : IsName s) : IsLexeme s.toList := by
  obtain ⟨c, cs, hs, hc, hcs⟩ := h.spelled
  rw [hs]
  exact .word hc hcs

theorem IsName.token {s : String} (h : IsName s) :
    Token.ofLexeme {} s.toList = ⟨.identifier, .text s, {}, s⟩ := by
  obtain ⟨c, cs, hs, hc, -⟩ := h.spelled
  have hk : wordKind s = .identifier := by
    simp only [wordKind, h.notDefine, h.notExternal, if_false]
  have ht : String.ofList (c :: cs) = s := by rw [← hs, String.ofList_toList]
  simp only [hs, Token.ofLexeme, hc, if_true, ht, hk]

theorem Grammar.IsOperator.token {g : Grammar} {s : String} (h : g.IsOperator s) :
    IsLexeme s.toList ∧ Token.ofLexeme {} s.toList = ⟨.character, .text s, {}, s⟩ := by
  obtain ⟨c, hc, -⟩ := h.level
  obtain ⟨start, finish, hlex⟩ := h.scanned
  have hi := isInk_of_lex hc hlex
  obtain ⟨hl, ht⟩ := lexeme_of_lex (by simpa [hc] using hi) hlex
  exact ⟨hl, ht.symm⟩

theorem IsNumeral.token {v : Double} (h : IsNumeral v) :
    IsLexeme v.numeral.toList ∧ (Token.ofLexeme {} v.numeral.toList).kind = .number ∧
      ∃ v', (Token.ofLexeme {} v.numeral.toList).payload = .number v' ∧ v.same v' = true := by
  obtain ⟨t, v', finish, hlex, hk, hp, hs⟩ := h
  obtain ⟨hl, ht⟩ := lexeme_of_lex v.inked_numeral hlex
  rw [← ht]
  exact ⟨hl, hk, v', hp, hs⟩

theorem breaks_of_mem {c : Char} (h : c ∈ [' ', '(', ')', ',', ';']) (cs : List Char) :
    Breaks (c :: cs) := by
  have hall : [' ', '(', ')', ',', ';'].all
      (fun c => !c.isAlphanum && !isNumeralChar c) = true := by decide
  have hc := List.all_eq_true.1 hall c h
  exact breaks_cons (by simpa using hc) cs

theorem divides_mark {c : Char} (h : c ∈ ['(', ')', ',', ';']) {tail : List Char}
    {ls : List (List Char)} (hd : Divides tail ls) : Divides (c :: tail) ([c] :: ls) := by
  have hall : ['(', ')', ',', ';'].all
      (fun c => !c.isAlpha && !isNumeralChar c && isInk c) = true := by decide
  have hc := List.all_eq_true.1 hall c h
  exact divides_symbol (by simpa [and_assoc] using hc) hd

/-- The text divides into the words wherever it stands in front of a text that breaks off. -/
def Prints (text : String) (words : List (List Char)) : Prop :=
  ∀ tail ls, Breaks tail → Divides tail ls → Divides (text.toList ++ tail) (words ++ ls)

theorem prints_lexeme {text : String} (h : IsLexeme text.toList) : Prints text [text.toList] :=
  fun _ _ ht hd => h.divides ht hd

theorem prints_spaced {texts : List String} (h : ∀ text ∈ texts, IsLexeme text.toList) :
    Prints (" ".intercalate texts) (texts.map String.toList) := by
  intro tail ls ht hd
  induction texts with
  | nil => simpa using hd
  | cons text texts ih =>
    obtain ⟨hl, hls⟩ := List.forall_mem_cons.1 h
    cases texts with
    | nil => simpa using hl.divides ht hd
    | cons text' texts =>
      have hrest := divides_space (ih hls)
      have hall := hl.divides (breaks_of_mem (by decide) _) hrest
      rw [String.intercalate_cons_cons]
      simpa using hall

theorem prints_parameters {params : List String} (h : ∀ p ∈ params, IsName p) :
    Prints (" ".intercalate params) (params.map String.toList) :=
  prints_spaced fun p hp => (h p hp).isLexeme

theorem prints_arguments {args : List Node} (h : ∀ a ∈ args, Prints a.surfaceText a.words) :
    Prints (", ".intercalate (Node.surfaceTexts args))
      ([[',']].intercalate (Node.wordsAmong args)) := by
  intro tail ls ht hd
  induction args with
  | nil => simpa [Node.surfaceTexts, Node.wordsAmong] using hd
  | cons a args ih =>
    obtain ⟨ha, has⟩ := List.forall_mem_cons.1 h
    cases args with
    | nil => simpa [Node.surfaceTexts, Node.wordsAmong] using ha tail ls ht hd
    | cons a' args =>
      have hrest := divides_mark (c := ',') (by decide) (divides_space (ih has))
      have hall := ha _ _ (breaks_of_mem (by decide) _) hrest
      simp only [Node.surfaceTexts, Node.wordsAmong] at hall ⊢
      rw [String.intercalate_cons_cons, List.intercalate_cons_cons]
      simpa using hall

theorem prints_list {name text : String} {words : List (List Char)} (hn : IsName name)
    (h : Prints text words) :
    Prints (name ++ "(" ++ text ++ ")") (name.toList :: ['('] :: (words ++ [[')']])) := by
  intro tail ls ht hd
  have hclosing := divides_mark (c := ')') (by decide) hd
  have htext := h _ _ (breaks_of_mem (by decide) tail) hclosing
  have hopening := divides_mark (c := '(') (by decide) htext
  have hall := hn.isLexeme.divides (breaks_of_mem (by decide) _) hopening
  simpa using hall

theorem Grammar.IsExpression.prints {g : Grammar} {n : Node} (h : g.IsExpression n) :
    Prints n.surfaceText n.words := by
  induction h with
  | number hv => exact prints_lexeme hv.token.1
  | var hn => exact prints_lexeme hn.isLexeme
  | @binary operator left right start ho _ _ ihl ihr =>
    intro tail ls ht hd
    have hclosing := divides_mark (c := ')') (by decide) hd
    have hright := divides_space (ihr _ _ (breaks_of_mem (by decide) tail) hclosing)
    have hoperator := divides_space (ho.token.1.divides (breaks_of_mem (by decide) _) hright)
    have hleft := ihl _ _ (breaks_of_mem (by decide) _) hoperator
    have hall := divides_mark (c := '(') (by decide) hleft
    simpa [Node.surfaceText, Node.words, toString] using hall
  | call hn _ ih => exact prints_list hn (prints_arguments ih)

theorem surfaceDefectAmong_eq_none {args : List Node}
    (h : ∀ a ∈ args, a.surfaceDefect? = none) : Node.surfaceDefectAmong? args = none := by
  induction args with
  | nil => rfl
  | cons a args ih =>
    obtain ⟨ha, has⟩ := List.forall_mem_cons.1 h
    simp only [Node.surfaceDefectAmong?, ha, ih has]
    rfl

theorem Grammar.IsExpression.surfaceDefect {g : Grammar} {n : Node} (h : g.IsExpression n) :
    n.surfaceDefect? = none := by
  induction h with
  | number => rfl
  | var => rfl
  | binary _ _ _ ihl ihr => simp only [Node.surfaceDefect?, ihl, ihr]; rfl
  | call _ _ ih => simp only [Node.surfaceDefect?, surfaceDefectAmong_eq_none ih]

namespace Node

def constructText (n : Node) : Except Defect String := do
  let text ← n.surface
  return if n.isPrototype then "extern " ++ text else text

def constructWords (n : Node) : List (List Char) :=
  if n.isPrototype then ['e', 'x', 't', 'e', 'r', 'n'] :: n.words else n.words

end Node

theorem prints_keyword {keyword : List Char} {start text : String} {words : List (List Char)}
    (hk : IsLexeme keyword) (hs : start.toList = keyword ++ [' ']) (h : Prints text words) :
    Prints (start ++ text) (keyword :: words) := by
  intro tail ls ht hd
  have hall := hk.divides (breaks_of_mem (by decide) _) (divides_space (h tail ls ht hd))
  simpa [hs] using hall

theorem prints_definition {proto text : String} {words words' : List (List Char)}
    (hp : Prints proto words) (h : Prints text words') :
    Prints (proto ++ " " ++ text) (words ++ words') := by
  intro tail ls ht hd
  have hall := hp _ _ (breaks_of_mem (by decide) _) (divides_space (h tail ls ht hd))
  simpa using hall

theorem isAnonymous_of_isName {name : String} (h : IsName name) (params : List String)
    (start : Position) : (Node.prototype name params start).isAnonymous = false := by
  obtain ⟨c, cs, hs, hc, -⟩ := h.spelled
  refine beq_false_of_ne fun he => ?_
  rw [he] at hs
  simp only [Node.anonymousName] at hs
  obtain ⟨rfl, -⟩ := List.cons.inj hs
  cases hc

theorem Grammar.IsConstruct.prints {g : Grammar} {n : Node} (h : g.IsConstruct n) :
    ∃ text, n.constructText = .ok text ∧ Prints text n.constructWords := by
  cases h with
  | @prototype name params start hn hps =>
    have hk : IsLexeme ['e', 'x', 't', 'e', 'r', 'n'] := .word rfl (List.all_eq_true.1 rfl)
    have hproto := prints_list hn (prints_parameters hps)
    exact ⟨"extern " ++ Node.signature name params, rfl, prints_keyword hk rfl hproto⟩
  | @definition name params body start start' hn hps hb _ =>
    have hk : IsLexeme ['d', 'e', 'f'] := .word rfl (List.all_eq_true.1 rfl)
    have hproto := prints_list hn (prints_parameters hps)
    have hwords : (Node.function (.prototype name params start) body start').constructWords =
        ['d', 'e', 'f'] :: ((Node.prototype name params start).words ++ body.words) := by
      simp [Node.constructWords, Node.isPrototype, Node.words, isAnonymous_of_isName hn]
    refine ⟨"def " ++ (Node.signature name params ++ " " ++ body.surfaceText), ?_, ?_⟩
    · simp [Node.constructText, Node.surface, Node.surfaceDefect?, hb.surfaceDefect,
        Node.isPrototype, Node.surfaceText, isAnonymous_of_isName hn, toString,
        String.append_assoc]
    · rw [hwords]
      exact prints_keyword hk rfl (prints_definition hproto hb.prints)
  | @anonymous body start start' hb _ =>
    refine ⟨body.surfaceText, ?_, hb.prints⟩
    simp only [Node.constructText, Node.surface, Node.surfaceDefect?, hb.surfaceDefect]
    rfl

theorem prints_program {g : Grammar} {nodes : List Node} (h : ∀ n ∈ nodes, g.IsConstruct n) :
    ∃ texts, nodes.mapM Node.constructText = .ok texts ∧ texts.length = nodes.length ∧
      Prints (";".intercalate texts) ([[';']].intercalate (nodes.map Node.constructWords)) := by
  induction nodes with
  | nil => exact ⟨[], rfl, rfl, fun tail ls _ hd => by simpa using hd⟩
  | cons n nodes ih =>
    obtain ⟨hn, hns⟩ := List.forall_mem_cons.1 h
    obtain ⟨text, ht, hp⟩ := hn.prints
    obtain ⟨texts, hts, hlen, hps⟩ := ih hns
    refine ⟨text :: texts, by rw [List.mapM_cons, ht, hts]; rfl, by simp [hlen], ?_⟩
    intro tail ls hb hd
    cases nodes with
    | nil =>
      cases hts
      simpa using hp tail ls hb hd
    | cons n' nodes =>
      cases texts with
      | nil => cases hlen
      | cons text' texts =>
        have hrest := divides_mark (c := ';') (by decide) (hps tail ls hb hd)
        have hall := hp _ _ (breaks_of_mem (by decide) _) hrest
        rw [String.intercalate_cons_cons, List.map_cons, List.map_cons,
          List.intercalate_cons_cons]
        simpa using hall

end Kaleidoscope
