import Kaleidoscope.Batch
import Kaleidoscope.CommandLine.Choices
import Kaleidoscope.CommandLine.Usage
import Kaleidoscope.Session
import Kaleidoscope.Text.LineEnds

/-! Carrying out a command line: an interactive session, the program in a file, or help. -/

set_option autoImplicit false

namespace Kaleidoscope

inductive Crash where
  | lostBinop
  | malformedPath (e : PathError)
  | undecodable (e : Text.Utf8Error)
  | failed (e : SetupError)

def Crash.message : Crash → String
  | .lostBinop => "'list' object has no attribute 'rpartition'"
  | .malformedPath e => e.message
  | .undecodable e => e.message
  | .failed (.table e _) => e.message
  | .failed (.fault ..) => "the input could not be read"

namespace CommandLine

inductive Ending where
  | exit (code : Nat)
  | crash (c : Crash)

structure Result where
  prints : List Print
  ending : Ending

inductive Task where
  | session (setup : Setup) (style : ReportStyle)
  | batch (path : String) (setup : Setup) (style : BatchStyle)

def taskOf (c : Choices) (precedence : Precedence) : Option Task :=
  let setup : Setup := { table := some precedence.table }
  let report : ReportStyle := ⟨c.outline, c.surface⟩
  if c.interactive then some (.session setup report)
  else
    (Batch.wanted c.file.join).map fun path =>
      .batch path setup ⟨c.printTokens, report, c.dumpAst, c.vizAst, c.vizFormat⟩

def Result.help : Result := ⟨Usage.help, .exit 0⟩

def Result.ofHalt : Halt → Result
  | .help => .help
  | .usage e => ⟨Usage.refusal e, .exit 2⟩
  | .lostBinop => ⟨[], .crash .lostBinop⟩

/-- The task of a command line, or the answer to one that has none. -/
def plan (args : List String) : Except Result Task :=
  match Choices.ofWords args with
  | .error halt => .error (.ofHalt halt)
  | .ok (choices, precedence) =>
    match taskOf choices precedence with
    | none => .error .help
    | some task => .ok task

def programText (c : Contents) : Except Text.Utf8Error String :=
  c.decode.map fun s => String.ofList (Text.unifyLineEnds s.toList)

def Result.ofSession (s : Session) : Result :=
  let ending :=
    match s.ending with
    | .finished => .exit 0
    | .failed e => .crash (.failed e)
  ⟨s.prints.map (·.print), ending⟩

variable {m : Type → Type} [Monad m]

def runBatch (disk : Disk m) (path : String) (setup : Setup) (style : BatchStyle) : m Result := do
  match ← disk.read path with
  | .error e =>
    if e.fault = .malformed then return ⟨[], .crash (.malformedPath e)⟩
    return ⟨[.line .diagnostics s!"Failed to read file {path}: {e.message}"], .exit 1⟩
  | .ok contents =>
    match programText contents with
    | .error e => return ⟨[], .crash (.undecodable e)⟩
    | .ok text =>
      let batch ← Batch.run disk setup style text
      match batch.result with
      | .ok _ => return ⟨batch.prints, .exit 0⟩
      | .error e => return ⟨batch.prints, .crash (.failed e)⟩

def run (disk : Disk m) (input : Source) (args : List String) : m Result := do
  match plan args with
  | .error result => return result
  | .ok (.session setup style) => return .ofSession (Session.run setup style input)
  | .ok (.batch path setup style) => runBatch disk path setup style

end CommandLine

end Kaleidoscope
