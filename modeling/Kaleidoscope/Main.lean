import Kaleidoscope.CommandLine.Run

/-! The command line. Everything is decided elsewhere; here files are read and written and text is
printed. No drawing program is ever called. -/

set_option autoImplicit false

namespace Kaleidoscope.Terminal

/-- Some codes arrive negated, as words. -/
def systemCode (code : UInt32) : Nat :=
  if code.toNat < Nat.pow 2 31 then code.toNat else Nat.pow 2 32 - code.toNat

def faultOfCode (code : UInt32) (reason : String) : PathFault :=
  match systemCode code with
  | 2 => .missing
  | 17 => .present
  | 20 => .notDirectory
  | 21 => .isDirectory
  | n => .other n reason

def faultOf : IO.Error → PathFault
  | .noFileOrDirectory _ code reason => faultOfCode code reason
  | .alreadyExists _ code reason => faultOfCode code reason
  | .inappropriateType _ code reason => faultOfCode code reason
  | .permissionDenied _ code reason => faultOfCode code reason
  | .resourceExhausted _ code reason => faultOfCode code reason
  | .invalidArgument _ code reason => faultOfCode code reason
  | e => .other 5 (toString e)

def attempt {α : Type} (path : String) (action : IO α) : IO (Except PathError α) := do
  match ← action.toBaseIO with
  | .ok a => return .ok a
  | .error e => return .error ⟨faultOf e, path⟩

def realDisk : Disk IO where
  read path := attempt path do return .bytes (← IO.FS.readBinFile path).toList
  write path text := attempt path (IO.FS.writeFile path text)
  createParents path := do
    let parents := Path.ofParts (Path.parts path).dropLast
    if parents.isEmpty then return .ok ()
    attempt parents (IO.FS.createDirAll parents)
  remove path := attempt path (IO.FS.removeFile path)
  draw _ := return .error .noProgram

def emit (p : Print) : IO Unit := do
  let stream ← match p.channel with
    | .output => IO.getStdout
    | .diagnostics => IO.getStderr
  stream.putStr p.text
  stream.flush

/-- Reads line by line, and prints what each line adds. -/
partial def converse (setup : Setup) (style : ReportStyle) (text : String) (printed : Nat) :
    IO Unit := do
  let line ← (← IO.getStdin).getLine
  if line.isEmpty then
    let session := Session.run setup style (Source.ofText text)
    ((session.prints.map (·.print)).drop printed).forM emit
  else
    let text := text ++ line
    let prints := Session.soFar setup style text
    (prints.drop printed).forM emit
    converse setup style text prints.length

def finish (result : CommandLine.Result) : IO UInt32 := do
  result.prints.forM emit
  match result.ending with
  | .exit code => return code.toUInt32
  | .crash c =>
    emit (.line .diagnostics c.message)
    return 1

def run (args : List String) : IO UInt32 := do
  match CommandLine.plan args with
  | .error result => finish result
  | .ok (.batch path setup style) => finish (← CommandLine.runBatch realDisk path setup style)
  | .ok (.session setup style) =>
    let prints := Session.soFar setup style ""
    prints.forM emit
    converse setup style "" prints.length
    return 0

end Kaleidoscope.Terminal

def main (args : List String) : IO UInt32 := Kaleidoscope.Terminal.run args
