import Kaleidoscope.Proofs.Quoting

/-! Reading DOT. Characters make tokens, one character at a time, and tokens make statements; the
braces of subgraphs count as statements of their own. -/

set_option autoImplicit false

namespace Kaleidoscope.Dot

inductive Token where
  | keyword (s : String)
  | name (s : String)
  | arrow
  | mark (c : Char)
  deriving DecidableEq, Repr

/-- What a reader is in the middle of, and what it has of that. -/
inductive Mode where
  | between
  | word (cs : List Char)
  | dash
  | quoted (cs : List Char)
  | escaped (cs : List Char)
  deriving DecidableEq, Repr

def isWordPart (c : Char) : Bool := isNamePart c || c == '.'

def marks : List Char := ['\x7b', '\x7d', '[', ']', '=']

def word? (cs : List Char) : Option Token :=
  if isKeyword cs then some (.keyword (String.ofList (cs.map Char.toLower)))
  else if isName cs || isNumber cs then some (.name (String.ofList cs))
  else none

def stepBetween (c : Char) : Option (Mode × List Token) :=
  if c.isWhitespace then some (.between, [])
  else if c = '"' then some (.quoted [], [])
  else if c = '-' then some (.dash, [])
  else if marks.contains c then some (.between, [.mark c])
  else if isWordPart c then some (.word [c], [])
  else none

/-- In quotes a backslash keeps a quote, drops a line feed, and stays in front of any other
character. -/
def step : Mode → Char → Option (Mode × List Token)
  | .between, c => stepBetween c
  | .word cs, c =>
    if isWordPart c then some (.word (cs ++ [c]), [])
    else do
      let token ← word? cs
      let (mode, tokens) ← stepBetween c
      return (mode, token :: tokens)
  | .dash, c =>
    if c = '>' then some (.between, [.arrow])
    else if isNumeralChar c then some (.word ['-', c], [])
    else none
  | .quoted cs, c =>
    if c = '"' then some (.between, [.name (String.ofList cs)])
    else if c = '\\' then some (.escaped cs, [])
    else some (.quoted (cs ++ [c]), [])
  | .escaped cs, c =>
    if c = '"' then some (.quoted (cs ++ [c]), [])
    else if c = '\n' then some (.quoted cs, [])
    else some (.quoted (cs ++ ['\\', c]), [])

def scan (mode : Mode) : List Char → Option (Mode × List Token)
  | [] => some (mode, [])
  | c :: cs => do
    let (mode, tokens) ← step mode c
    let (mode, rest) ← scan mode cs
    return (mode, tokens ++ rest)

inductive Statement where
  | defaults (kind : String) (attributes : List (String × String))
  | assign (key value : String)
  | node (id : String) (attributes : List (String × String))
  | edge (tail head : String) (attributes : List (String × String))
  | opening (subgraph : String)
  | closing
  deriving DecidableEq, Repr

inductive Subject where
  | defaults (kind : String)
  | node (id : String)
  | edge (tail head : String)
  deriving DecidableEq, Repr

def Subject.with (attributes : List (String × String)) : Subject → Statement
  | .defaults kind => .defaults kind attributes
  | .node id => .node id attributes
  | .edge tail head => .edge tail head attributes

/-- The statements up to the brace that closes the graph. The depth is that of the subgraphs; a
subject is pending while its attributes are read. -/
def statements (depth : Nat) (pending : Option (Subject × List (String × String))) :
    List Token → Option (List Statement)
  | [] => none
  | token :: tokens =>
    match pending, token, tokens with
    | some (subject, attributes), .mark ']', tokens => do
      return subject.with attributes :: (← statements depth none tokens)
    | some (subject, attributes), .name key, .mark '=' :: .name value :: tokens =>
      statements depth (some (subject, attributes ++ [(key, value)])) tokens
    | none, .name a, .mark '[' :: tokens => statements depth (some (.node a, [])) tokens
    | none, .name a, .arrow :: .name b :: .mark '[' :: tokens =>
      statements depth (some (.edge a b, [])) tokens
    | none, .name a, .mark '=' :: .name b :: tokens => do
      return .assign a b :: (← statements depth none tokens)
    | none, .keyword "subgraph", .name a :: .mark '\x7b' :: tokens => do
      return .opening a :: (← statements (depth + 1) none tokens)
    | none, .keyword kind, .mark '[' :: tokens =>
      if ["graph", "node", "edge"].contains kind then
        statements depth (some (.defaults kind, [])) tokens
      else none
    | none, .mark '\x7d', tokens =>
      match depth with
      | 0 => if tokens.isEmpty then some [] else none
      | depth + 1 => do return .closing :: (← statements depth none tokens)
    | _, _, _ => none

def read (s : String) : Option (List Statement) := do
  match ← scan .between s.toList with
  | (.between, .keyword "digraph" :: .mark '\x7b' :: tokens) => statements 0 none tokens
  | _ => none

theorem scan_append (mode : Mode) (cs ds : List Char) :
    scan mode (cs ++ ds) = (do
      let (mode, tokens) ← scan mode cs
      let (mode, rest) ← scan mode ds
      return (mode, tokens ++ rest)) := by
  induction cs generalizing mode with
  | nil => rcases h : scan mode ds with _ | ⟨after, rest⟩ <;> simp [scan, h]
  | cons c cs ih =>
    rw [List.cons_append, scan, scan]
    rcases step mode c with _ | ⟨next, first⟩
    · rfl
    · rcases hmiddle : scan next cs with _ | ⟨inside, middle⟩
      · simp [ih, hmiddle]
      · rcases hrest : scan inside ds with _ | ⟨after, rest⟩ <;> simp [ih, hmiddle, hrest]

theorem scan_of_append {mode mode' mode'' : Mode} {cs ds : List Char} {ts us : List Token}
    (h : scan mode cs = some (mode', ts)) (h' : scan mode' ds = some (mode'', us)) :
    scan mode (cs ++ ds) = some (mode'', ts ++ us) := by
  simp [scan_append, h, h']

theorem scan_eq_none_of_append {mode mode' : Mode} {cs ds : List Char} {ts : List Token}
    (h : scan mode cs = some (mode', ts)) (h' : scan mode' ds = none) :
    scan mode (cs ++ ds) = none := by
  simp [scan_append, h, h']

/-- The text is read from its beginning to its end as these tokens. -/
def Scans (cs : List Char) (ts : List Token) : Prop := scan .between cs = some (.between, ts)

theorem Scans.append {cs ds : List Char} {ts us : List Token} (h : Scans cs ts) (h' : Scans ds us) :
    Scans (cs ++ ds) (ts ++ us) := scan_of_append h h'

theorem scan_word (acc : List Char) {cs : List Char} (h : ∀ c ∈ cs, isNamePart c = true) :
    scan (.word acc) cs = some (.word (acc ++ cs), []) := by
  induction cs generalizing acc with
  | nil => simp [scan]
  | cons c cs ih =>
    obtain ⟨hc, hcs⟩ := List.forall_mem_cons.1 h
    simp [scan, step, isWordPart, hc, ih _ hcs]

theorem isNamePart_of_isNameStart {c : Char} (h : isNameStart c = true) : isNamePart c = true := by
  have hname : isName [c] = true := by simp [isName, h]
  exact isNamePart_of_isName hname c (List.mem_singleton_self c)

theorem stepBetween_of_isNameStart {c : Char} (h : isNameStart c = true) :
    stepBetween c = some (.word [c], []) := by
  have hne : ∀ d, isNameStart d = false → c ≠ d := by
    rintro d hd rfl
    rw [h] at hd
    cases hd
  unfold stepBetween
  simp [Char.isWhitespace, marks, isWordPart, isNamePart_of_isNameStart h, hne ' ' (by decide),
    hne '\t' (by decide), hne '\r' (by decide), hne '\n' (by decide), hne '"' (by decide),
    hne '-' (by decide), hne '\x7b' (by decide), hne '\x7d' (by decide), hne '[' (by decide),
    hne ']' (by decide), hne '=' (by decide)]

theorem scan_name {cs : List Char} (h : isName cs = true) :
    scan .between cs = some (.word cs, []) := by
  have hparts := isNamePart_of_isName h
  cases cs with
  | nil => cases h
  | cons c cs =>
    have hc := (Bool.and_eq_true_iff.1 h).1
    have hcs := (List.forall_mem_cons.1 hparts).2
    simp [scan, step, stepBetween_of_isNameStart hc, scan_word _ hcs]

theorem scan_backslash {cs : List Char} (h : isName cs = true) (rest : List Char) :
    scan .between (cs ++ '\\' :: rest) = none := by
  have hstep : stepBetween '\\' = none := rfl
  have hpart : isWordPart '\\' = false := rfl
  refine scan_eq_none_of_append (scan_name h) ?_
  simp only [scan, step, hpart, hstep]
  rcases word? cs with _ | token <;> rfl

theorem scan_quoted (acc : List Char) {cs : List Char} (hq : '"' ∉ cs) (hb : '\\' ∉ cs) :
    scan (.quoted acc) cs = some (.quoted (acc ++ cs), []) := by
  induction cs generalizing acc with
  | nil => simp [scan]
  | cons c cs ih =>
    rw [List.mem_cons, not_or] at hq hb
    simp [scan, step, Ne.symm hq.1, Ne.symm hb.1, ih _ hq.2 hb.2]

/-- A character that ends a word, and is a token or a blank by itself. -/
structure Ends (c : Char) (ts : List Token) : Prop where
  apart : isWordPart c = false
  scans : stepBetween c = some (.between, ts)

theorem Scans.name {cs : List Char} (h : isName cs = true) (hk : isKeyword cs = false) {c : Char}
    {ts : List Token} (hc : Ends c ts) :
    Scans (cs ++ [c]) (.name (String.ofList cs) :: ts) := by
  refine scan_of_append (scan_name h) ?_
  simp [scan, step, word?, hc.apart, hc.scans, hk, h]

/-- No backslash does anything to the character behind it. -/
inductive Plain : List Char → Prop where
  | nil : Plain []
  | char {c : Char} {cs : List Char} : c ≠ '\\' → Plain cs → Plain (c :: cs)
  | pair {c : Char} {cs : List Char} : c ≠ '"' → c ≠ '\n' → Plain cs → Plain ('\\' :: c :: cs)

theorem plain_of_notMem {cs : List Char} (h : '\\' ∉ cs) : Plain cs := by
  induction cs with
  | nil => exact .nil
  | cons c cs ih =>
    rw [List.mem_cons, not_or] at h
    exact .char (Ne.symm h.1) (ih h.2)

theorem Plain.append {cs ds : List Char} (h : Plain cs) (h' : Plain ds) : Plain (cs ++ ds) := by
  induction h with
  | nil => exact h'
  | char hc _ ih => exact .char hc ih
  | pair hq hl _ ih => exact .pair hq hl ih

theorem Plain.backslashes {cs : List Char} (h : Plain cs) : Dot.backslashes cs % 2 = 0 := by
  have heven : oddAfter false cs = false := by
    induction h with
    | nil => rfl
    | char hc _ ih => rw [oddAfter_cons hc, ih]
    | @pair c cs _ _ _ ih =>
      rw [oddAfter_backslash]
      by_cases hc : c = '\\'
      · rw [hc, oddAfter_backslash]
        exact ih
      · rw [oddAfter_cons hc, ih]
  rw [oddAfter_false, decide_eq_false_iff_not] at heven
  omega

theorem Plain.scan {cs : List Char} (h : Plain cs) (acc : List Char) :
    Dot.scan (.quoted acc) (escapeQuotes false cs) = some (.quoted (acc ++ cs), []) := by
  induction h generalizing acc with
  | nil => simp [escapeQuotes, Dot.scan]
  | @char c cs hb _ ih =>
    by_cases hq : c = '"'
    · rw [hq, escapeQuotes_quote]
      simp [Dot.scan, step, ih]
    · rw [escapeQuotes_cons hb hq]
      simp [Dot.scan, step, hb, hq, ih]
  | @pair c cs hq hl _ ih =>
    by_cases hb : c = '\\'
    · rw [hb, escapeQuotes_backslash, escapeQuotes_backslash]
      simp [Dot.scan, step, ih]
    · rw [escapeQuotes_backslash, escapeQuotes_cons hb hq]
      simp [Dot.scan, step, hq, hl, ih]

theorem Scans.value {s : String} (h : Wordy s) (hp : Plain s.toList) {c : Char} {ts : List Token}
    (hc : Ends c ts) : Scans ((Dot.value s).toList ++ [c]) (.name s :: ts) := by
  rcases h.value_cases with ⟨hn, hk, hv⟩ | hv
  · rw [hv]
    simpa using Scans.name hn hk hc
  · have hquoted : Dot.scan .between (Dot.value s).toList = some (.between, [.name s]) := by
      rw [hv, String.toList_ofList, List.cons_append]
      have hscan := hp.scan []
      simp [Dot.scan, step, stepBetween, scan_append, hscan]
    exact scan_of_append hquoted (by simp [Dot.scan, step, hc.scans])

def attributeTokens (attributes : List (String × String)) : List Token :=
  attributes.flatMap fun pair => [.name pair.1, .mark '=', .name pair.2]

namespace Statement

def tokens : Statement → List Token
  | .defaults kind attributes =>
    .keyword kind :: .mark '[' :: attributeTokens attributes ++ [.mark ']']
  | .assign key value => [.name key, .mark '=', .name value]
  | .node id attributes => .name id :: .mark '[' :: attributeTokens attributes ++ [.mark ']']
  | .edge tail head attributes =>
    .name tail :: .arrow :: .name head :: .mark '[' :: attributeTokens attributes ++ [.mark ']']
  | .opening subgraph => [.keyword "subgraph", .name subgraph, .mark '\x7b']
  | .closing => [.mark '\x7d']

def values : Statement → List String
  | .defaults _ attributes | .node _ attributes | .edge _ _ attributes => attributes.map Prod.snd
  | .assign _ value => [value]
  | .opening _ | .closing => []

end Statement

/-- From one depth to another, the statements are read wherever their tokens come first. -/
def Restores (depth depth' : Nat) (ss : List Statement) : Prop :=
  ∀ ts, statements depth none (ss.flatMap Statement.tokens ++ ts) =
    (statements depth' none ts).map (ss ++ ·)

theorem Restores.append {d d' d'' : Nat} {ss ss' : List Statement} (h : Restores d d' ss)
    (h' : Restores d' d'' ss') : Restores d d'' (ss ++ ss') := by
  intro ts
  rw [List.flatMap_append, List.append_assoc, h, h', Option.map_map]
  congr 1
  funext us
  simp

section

variable (depth : Nat) (ts : List Token)

theorem statements_end (subject : Subject) (attributes : List (String × String)) :
    statements depth (some (subject, attributes)) (.mark ']' :: ts) =
      (statements depth none ts).map (subject.with attributes :: ·) := by
  change (do return subject.with attributes :: (← statements depth none ts)) = _
  cases statements depth none ts <;> rfl

theorem statements_attribute (subject : Subject) (attributes : List (String × String))
    (key value : String) :
    statements depth (some (subject, attributes)) (.name key :: .mark '=' :: .name value :: ts) =
      statements depth (some (subject, attributes ++ [(key, value)])) ts := rfl

theorem statements_node (id : String) :
    statements depth none (.name id :: .mark '[' :: ts) =
      statements depth (some (.node id, [])) ts := rfl

theorem statements_edge (tail head : String) :
    statements depth none (.name tail :: .arrow :: .name head :: .mark '[' :: ts) =
      statements depth (some (.edge tail head, [])) ts := rfl

theorem statements_defaults {kind : String} (h : kind ∈ ["graph", "node", "edge"]) :
    statements depth none (.keyword kind :: .mark '[' :: ts) =
      statements depth (some (.defaults kind, [])) ts := by
  simp only [List.mem_cons, List.not_mem_nil, or_false] at h
  obtain rfl | rfl | rfl := h <;> rfl

theorem statements_assign (key value : String) :
    statements depth none (.name key :: .mark '=' :: .name value :: ts) =
      (statements depth none ts).map (.assign key value :: ·) := by
  change (do return Statement.assign key value :: (← statements depth none ts)) = _
  cases statements depth none ts <;> rfl

theorem statements_opening (subgraph : String) :
    statements depth none (.keyword "subgraph" :: .name subgraph :: .mark '\x7b' :: ts) =
      (statements (depth + 1) none ts).map (.opening subgraph :: ·) := by
  change (do return Statement.opening subgraph :: (← statements (depth + 1) none ts)) = _
  cases statements (depth + 1) none ts <;> rfl

theorem statements_closing :
    statements (depth + 1) none (.mark '\x7d' :: ts) =
      (statements depth none ts).map (.closing :: ·) := by
  change (do return Statement.closing :: (← statements depth none ts)) = _
  cases statements depth none ts <;> rfl

end

theorem statements_attributes (depth : Nat) (subject : Subject)
    (before attributes : List (String × String)) (ts : List Token) :
    statements depth (some (subject, before)) (attributeTokens attributes ++ .mark ']' :: ts) =
      (statements depth none ts).map (subject.with (before ++ attributes) :: ·) := by
  induction attributes generalizing before with
  | nil => simp [attributeTokens, statements_end]
  | cons pair attributes ih =>
    have hrest := ih (before ++ [pair])
    rw [List.append_assoc, List.singleton_append] at hrest
    rw [← hrest]
    simp [attributeTokens, statements_attribute]

theorem restores_defaults (depth : Nat) {kind : String} (h : kind ∈ ["graph", "node", "edge"])
    (attributes : List (String × String)) : Restores depth depth [.defaults kind attributes] := by
  intro ts
  have hrest := statements_attributes depth (.defaults kind) [] attributes ts
  simpa [Statement.tokens, statements_defaults depth _ h, Subject.with] using hrest

theorem restores_node (depth : Nat) (id : String) (attributes : List (String × String)) :
    Restores depth depth [.node id attributes] := by
  intro ts
  have hrest := statements_attributes depth (.node id) [] attributes ts
  simpa [Statement.tokens, statements_node, Subject.with] using hrest

theorem restores_edge (depth : Nat) (tail head : String) (attributes : List (String × String)) :
    Restores depth depth [.edge tail head attributes] := by
  intro ts
  have hrest := statements_attributes depth (.edge tail head) [] attributes ts
  simpa [Statement.tokens, statements_edge, Subject.with] using hrest

theorem restores_assign (depth : Nat) (key value : String) :
    Restores depth depth [.assign key value] :=
  fun ts => statements_assign depth ts key value

theorem restores_opening (depth : Nat) (subgraph : String) :
    Restores depth (depth + 1) [.opening subgraph] :=
  fun ts => statements_opening depth ts subgraph

theorem restores_closing (depth : Nat) : Restores (depth + 1) depth [.closing] :=
  fun ts => statements_closing depth ts

end Kaleidoscope.Dot
