import Kaleidoscope.Export

/-! Whole programs at once: the tokens if they are asked for, a report of every outcome, then the
exports of what parsed. -/

set_option autoImplicit false

namespace Kaleidoscope

structure BatchStyle where
  tokens : Bool := false
  report : ReportStyle := {}
  dumpPath : Option String := none
  drawingPath : Option String := none
  drawingFormat : Option String := some "svg"
  deriving DecidableEq, Repr

structure Batch where
  prints : List Print
  result : Except SetupError (List Outcome)

namespace Batch

def shownTokens : Nat := 50

def padLeft (width : Nat) (s : String) : String :=
  String.ofList (List.replicate (width - s.length) ' ') ++ s

def tokenLines (i : Nat) : List Token → List String
  | [] => []
  | t :: ts => s!"  {padLeft 3 (toString i)}: {t.shown}" :: tokenLines (i + 1) ts

def tokenListing (ts : List Token) : List String :=
  s!"Tokens ({ts.length}):" :: tokenLines 0 (ts.take shownTokens) ++
    if ts.length > shownTokens then [s!"  ... and {ts.length - shownTokens} more"] else []

/-- An empty path asks for nothing. -/
def wanted (path : Option String) : Option String := path.filter (· != "")

variable {m : Type → Type} [Monad m]

def exports (disk : Disk m) (style : BatchStyle) (trees : List Node) : m (List Print) := do
  let dumped ←
    match wanted style.dumpPath with
    | some path => do pure [← dump disk path trees]
    | none => pure []
  let drawn ←
    match wanted style.drawingPath with
    | some path => draw disk path style.drawingFormat trees
    | none => pure []
  return dumped ++ drawn

def run (disk : Disk m) (setup : Setup) (style : BatchStyle) (text : String) : m Batch := do
  let listing :=
    if style.tokens then (tokenListing (lex text)).map (Print.line .output) else []
  match setup.run (Source.ofText text) with
  | .error e => return ⟨listing, .error e⟩
  | .ok run =>
    let outcomes := Event.outcomes run.events
    let exported ← exports disk style (outcomes.filterMap Outcome.node?)
    return ⟨listing ++ outcomes.flatMap (·.report style.report) ++ exported, .ok outcomes⟩

end Batch

end Kaleidoscope
