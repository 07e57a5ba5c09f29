import Kaleidoscope.Report

/-! Interactive sessions. The prompt is shown at the start and at every semicolon. An interrupt
ends a session as the end of the input does, unless it comes before the first token. -/

set_option autoImplicit false

namespace Kaleidoscope

structure TimedPrint where
  print : Print
  taken : Nat
  deriving DecidableEq, Repr

inductive SessionEnd where
  | finished
  | failed (e : SetupError)

structure Session where
  prints : List TimedPrint
  taken : Nat
  ending : SessionEnd

namespace Session

def prompt : Print := ⟨.diagnostics, "kaleidoscope >>> "⟩

def farewell : Print := ⟨.diagnostics, "\n"⟩

def eventPrints (style : ReportStyle) : Event → List TimedPrint
  | .separator p => [⟨prompt, p.feed.taken⟩]
  | .outcome o p => (o.report style).map (⟨·, p.feed.taken⟩)

def ofRun (style : ReportStyle) (run : Run) : Session :=
  let taken := run.final.feed.taken
  let prints := ⟨prompt, 0⟩ :: run.events.flatMap (eventPrints style)
  match run.fault with
  | none | some .interrupted => ⟨prints ++ [⟨farewell, taken⟩], taken, .finished⟩
  | some f => ⟨prints, taken, .failed (.fault f taken)⟩

def run (setup : Setup) (style : ReportStyle) (source : Source) : Session :=
  match setup.run source with
  | .ok run => ofRun style run
  | .error e => ⟨[⟨prompt, 0⟩], e.taken, .failed e⟩

/-- What is printed by the time that all of a text has been read, whatever follows it. -/
def soFar (setup : Setup) (style : ReportStyle) (text : String) : List Print :=
  let source := { Source.ofText text with pending := some ⟨text.length, .unreadable⟩ }
  (run setup style source).prints.map (·.print)

end Session

end Kaleidoscope
