import Kaleidoscope.Node.Outline
import Kaleidoscope.Node.Surface
import Kaleidoscope.Program

/-! Reports: what is printed of each outcome. Trees go to the output, everything else to the
diagnostics. -/

set_option autoImplicit false

namespace Kaleidoscope

inductive Channel where
  | output | diagnostics
  deriving DecidableEq, Repr, Inhabited

structure Print where
  channel : Channel
  text : String
  deriving DecidableEq, Repr

namespace Print

def line (channel : Channel) (text : String) : Print := ⟨channel, text ++ "\n"⟩

end Print

structure ReportStyle where
  outline : Bool := true
  surface : Bool := false
  deriving DecidableEq, Repr

def ConstructKind.status : ConstructKind → String
  | .definition => "Parsed a function definition"
  | .external => "Parsed an extern"
  | .expression => "Parsed a top-level expression"

def outlineText (n : Node) : String := "\n".intercalate (n.lines 0 "")

def Outcome.report (style : ReportStyle) (o : Outcome) : List Print :=
  match o.result with
  | .error d => [.line .diagnostics s!"Error: {d.shown}"]
  | .ok n =>
    .line .diagnostics o.kind.status ::
      ((if style.outline then [.line .output (outlineText n)] else []) ++
        if style.surface then [.line .output n.surfaceText] else [])

end Kaleidoscope
