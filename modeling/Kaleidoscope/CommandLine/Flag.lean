import Kaleidoscope.Text.Digit
import Kaleidoscope.Text.Quoted

/-! The flags of the command line, and how a word is told to be one. A long flag may be cut short
as long as no other starts alike, and may carry its value behind an equals sign. Behind a flag of
one letter the equals sign may be left out, and other letters may stand in place of a value. -/

set_option autoImplicit false

namespace Kaleidoscope

inductive Flag where
  | help | file | interactive | printTokens | noAst | surface | dumpAst | vizAst | vizFormat | binop
  deriving DecidableEq, Repr

namespace Flag

def spellings : List (String × Flag) :=
  [("-h", .help), ("--help", .help), ("--file", .file), ("-f", .file),
   ("--interactive", .interactive), ("-i", .interactive), ("--print-tokens", .printTokens),
   ("--no-ast", .noAst), ("--surface", .surface), ("--dump-ast", .dumpAst),
   ("--viz-ast", .vizAst), ("--viz-format", .vizFormat), ("--binop", .binop)]

def ofSpelling? (s : String) : Option Flag := spellings.lookup s

def name (f : Flag) : String :=
  "/".intercalate ((spellings.filter (·.2 == f)).map (·.1))

def takesValue : Flag → Bool
  | .file | .dumpAst | .vizAst | .vizFormat | .binop => true
  | .help | .interactive | .printTokens | .noAst | .surface => false

end Flag

inductive UsageError where
  | ambiguous (word : String) (candidates : List String)
  | valueExpected (flag : Flag)
  | valueIgnored (flag : Flag) (value : String)
  | conflict (flag other : Flag)
  | unrecognized (words : List String)
  | badBinop (message : String)
  deriving DecidableEq, Repr

def UsageError.message : UsageError → String
  | .ambiguous word candidates =>
    let list := ", ".intercalate candidates
    s!"ambiguous option: {word} could match {list}"
  | .valueExpected flag => s!"argument {flag.name}: expected one argument"
  | .valueIgnored flag value =>
    s!"argument {flag.name}: ignored explicit argument {Text.quoted value}"
  | .conflict flag other => s!"argument {flag.name}: not allowed with argument {other.name}"
  | .unrecognized words =>
    let list := " ".intercalate words
    s!"unrecognized arguments: {list}"
  | .badBinop message => s!"--binop: {message}"

/-- What stands behind a flag in its own word: nothing, a value, or letters that are a value if the
flag takes one and else more flags. -/
inductive Attached where
  | nothing
  | value (s : String)
  | letters (s : String)
  deriving DecidableEq, Repr

/-- What stands behind the equals sign of a flag of one letter. -/
def Attached.toLetters : Attached → Attached
  | .value s => if s.isEmpty then .value s else .letters s
  | a => a

structure GivenFlag where
  flag : Flag
  attached : Attached
  deriving DecidableEq, Repr

inductive Word where
  | plain (s : String)
  | flag (s : String) (given : GivenFlag)
  | unknownFlag (s : String)
  | stop (s : String)
  deriving DecidableEq, Repr

namespace Word

def text : Word → String
  | .plain s => s
  | .flag s _ => s
  | .unknownFlag s => s
  | .stop s => s

/-- The parts of a word before and behind its first equals sign. -/
def splitEquals (cs : List Char) : List Char × Attached :=
  match cs.dropWhile (· != '=') with
  | [] => (cs, .nothing)
  | _ :: value => (cs.takeWhile (· != '='), .value (String.ofList value))

def dropFinalNewline (cs : List Char) : List Char :=
  match cs.reverse with
  | '\n' :: rest => rest.reverse
  | _ => cs

/-- A minus sign and a number, with a point before the last digits or without one. -/
def isNegativeNumber (cs : List Char) : Bool :=
  match dropFinalNewline cs with
  | '-' :: digits =>
    let whole := digits.takeWhile Text.isDecimal
    match digits.drop whole.length with
    | [] => !whole.isEmpty
    | '.' :: fraction => !fraction.isEmpty && fraction.all Text.isDecimal
    | _ => false
  | _ => false

def isLong (cs : List Char) : Bool := cs.take 2 == ['-', '-']

/-- The flags that a word may be short for. A single dash and a letter may be followed by a value
or by the letters of more flags. -/
def candidates (cs : List Char) : List (String × GivenFlag) :=
  if isLong cs then
    let (stem, attached) := splitEquals cs
    (Flag.spellings.filter fun (s, _) => stem.isPrefixOf s.toList).map fun (s, f) =>
      (s, ⟨f, attached⟩)
  else
    let s := String.ofList (cs.take 2)
    match Flag.ofSpelling? s with
    | some f => [(s, ⟨f, .letters (String.ofList (cs.drop 2))⟩)]
    | none => []

def spelledOut? (cs : List Char) : Option GivenFlag :=
  let whole := (Flag.ofSpelling? (String.ofList cs)).map (⟨·, .nothing⟩)
  let (stem, attached) := splitEquals cs
  let attached := if isLong stem then attached else attached.toLetters
  whole <|> (Flag.ofSpelling? (String.ofList stem)).map (⟨·, attached⟩)

def ofText (s : String) : Except UsageError Word :=
  let cs := s.toList
  if cs.head? != some '-' then .ok (.plain s)
  else if cs.length = 1 then .ok (.plain s)
  else
    match spelledOut? cs with
    | some given => .ok (.flag s given)
    | none =>
      match candidates cs with
      | [(_, given)] => .ok (.flag s given)
      | [] =>
        if isNegativeNumber cs || cs.contains ' ' then .ok (.plain s) else .ok (.unknownFlag s)
      | many => .error (.ambiguous s (many.map (·.1)))

/-- All words. Behind a double dash none is a flag. -/
def ofTexts : List String → Except UsageError (List Word)
  | [] => .ok []
  | s :: ss =>
    if s = "--" then .ok (.stop s :: ss.map .plain)
    else do
      let w ← ofText s
      let ws ← ofTexts ss
      return w :: ws

end Word

end Kaleidoscope
