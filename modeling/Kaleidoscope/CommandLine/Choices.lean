import Kaleidoscope.CommandLine.Flag
import Kaleidoscope.Precedence

/-! What the words of a command line come to: choices, or the reason why there are none. -/

set_option autoImplicit false

namespace Kaleidoscope

/-- The value that a flag was given, if it was not lost. -/
abbrev GivenValue := Option String

/-- A double dash as a value is lost. -/
def GivenValue.ofText (s : String) : GivenValue := if s = "--" then none else some s

structure Choices where
  file : Option GivenValue := none
  interactive : Bool := false
  printTokens : Bool := false
  outline : Bool := true
  surface : Bool := false
  dumpAst : GivenValue := none
  vizAst : GivenValue := none
  vizFormat : GivenValue := some "svg"
  binops : List GivenValue := []
  deriving DecidableEq, Repr

inductive Halt where
  | help
  | usage (e : UsageError)
  | lostBinop
  deriving DecidableEq, Repr

/-- What one word asks for: some switches, then perhaps a flag with a value, which may stand in the
next word. -/
structure Asked where
  switches : List Flag := []
  valued : Option (Flag × Option String) := none
  deriving DecidableEq, Repr

namespace Asked

def ofFlag (flag : Flag) : Asked :=
  if flag.takesValue then { valued := some (flag, none) } else { switches := [flag] }

def ofValue (flag : Flag) (value : String) : Except UsageError Asked :=
  if flag.takesValue then .ok { valued := some (flag, some value) }
  else .error (.valueIgnored flag value)

/-- The letters behind a flag are its value, or else the next is a flag of its own. -/
def ofLetters (flag : Flag) : List Char → Except UsageError Asked
  | [] => .ok (ofFlag flag)
  | c :: cs =>
    if flag.takesValue then ofValue flag (String.ofList (c :: cs))
    else
      match Flag.ofSpelling? (String.ofList ['-', c]) with
      | some next =>
        (ofLetters next cs).map fun asked => { asked with switches := flag :: asked.switches }
      | none => .error (.valueIgnored flag (String.ofList (c :: cs)))

def ofGiven (given : GivenFlag) : Except UsageError Asked :=
  match given.attached with
  | .nothing => .ok (ofFlag given.flag)
  | .value s => ofValue given.flag s
  | .letters s => ofLetters given.flag s.toList

end Asked

namespace Choices

def setSwitch (c : Choices) : Flag → Except Halt Choices
  | .help => .error .help
  | .interactive =>
    if c.file.isSome then .error (.usage (.conflict .interactive .file))
    else .ok { c with interactive := true }
  | .printTokens => .ok { c with printTokens := true }
  | .noAst => .ok { c with outline := false }
  | .surface => .ok { c with surface := true }
  | flag => .error (.usage (.valueExpected flag))

def setValue (c : Choices) (flag : Flag) (text : String) : Except Halt Choices :=
  let value := GivenValue.ofText text
  match flag with
  | .file =>
    if c.interactive then .error (.usage (.conflict .file .interactive))
    else .ok { c with file := some value }
  | .dumpAst => .ok { c with dumpAst := value }
  | .vizAst => .ok { c with vizAst := value }
  | .vizFormat => .ok { c with vizFormat := value }
  | .binop => .ok { c with binops := c.binops ++ [value] }
  | flag => .error (.usage (.valueIgnored flag text))

/-- Takes the words in turn, and returns those that are no choice. -/
def take (c : Choices) (extra : List String) : List Word → Except Halt (Choices × List String)
  | [] => .ok (c, extra)
  | .flag _ given :: words => do
    let asked ← (Asked.ofGiven given).mapError .usage
    match asked.valued with
    | none => take (← asked.switches.foldlM setSwitch c) extra words
    | some (flag, some value) =>
      take (← (← asked.switches.foldlM setSwitch c).setValue flag value) extra words
    | some (flag, none) =>
      match words with
      | .plain value :: words =>
        take (← (← asked.switches.foldlM setSwitch c).setValue flag value) extra words
      | _ => throw (.usage (.valueExpected flag))
  | word :: words => take c (extra ++ [word.text]) words

def precedence (c : Choices) : Except Halt Precedence :=
  c.binops.foldlM (fun p given =>
    match given.map Precedence.readOption with
    | some (.ok (op, level)) => .ok (p.set op level)
    | some (.error e) => .error (.usage (.badBinop e.message))
    | none => .error .lostBinop) Precedence.standard

def ofWords (args : List String) : Except Halt (Choices × Precedence) := do
  let words ← (Word.ofTexts args).mapError .usage
  let (c, extra) ← take {} [] words
  if !extra.isEmpty then throw (.usage (.unrecognized extra))
  return (c, ← c.precedence)

end Choices

end Kaleidoscope
