import Kaleidoscope.Files.Disk
import Kaleidoscope.Node.Document
import Kaleidoscope.Node.Drawing
import Kaleidoscope.Report

/-! Exports of parsed trees: as a JSON list, and as a drawing. The drawing program is given the DOT
text in a file at the path of the drawing without its extension, which is removed afterwards. -/

set_option autoImplicit false

namespace Kaleidoscope

inductive ExportError where
  | noFormat
  | format (e : UnknownFormat)
  | path (e : PathError)
  | drawing (e : DrawingError)
  deriving DecidableEq, Repr

def ExportError.message : ExportError → String
  | .noFormat => "'list' object has no attribute 'lower'"
  | .format e => e.message
  | .path e => e.message
  | .drawing e => e.message

def ExportError.complaint : ExportError → String
  | .drawing e => e.complaint
  | _ => ""

variable {m : Type → Type} [Monad m]

def dumpDocument (trees : List Node) : Document := .list (Node.contents trees)

/-- The file is opened first. What has been written when a number stops the writing stays there. -/
def dump (disk : Disk m) (path : String) (trees : List Node) : m Print := do
  let writing := (dumpDocument trees).write
  let failure (message : String) : Print :=
    .line .diagnostics s!"Failed to write AST JSON to {path}: {message}"
  match ← disk.write path writing.text with
  | .error e => return failure e.message
  | .ok () =>
    match writing.refused with
    | some v => return failure s!"Out of range float values are not JSON compliant: {v.written}"
    | none => return .line .diagnostics s!"Wrote AST JSON to {path}"

def drawingText (trees : List Node) : String := (Diagram.mk (Node.clusters 0 trees)).text

/-- An unknown format is refused before anything is written. -/
def drawTo (disk : Disk m) (path format : String) (trees : List Node) :
    ExceptT ExportError m Unit := do
  match readFormat format with
  | .error e => throw (.format e)
  | .ok format =>
    (disk.createParents path : m _) >>= orThrow .path
    (disk.write path (drawingText trees) : m _) >>= orThrow .path
    (disk.draw ⟨path, format⟩ : m _) >>= orThrow .drawing
    (disk.remove path : m _) >>= orThrow .path
where
  orThrow {ε : Type} (wrap : ε → ExportError) : Except ε Unit → ExceptT ExportError m Unit
    | .ok () => pure ()
    | .error e => throw (wrap e)

def drawingFailure (path : String) (e : ExportError) : List Print :=
  [⟨.diagnostics, e.complaint⟩,
    .line .diagnostics s!"Failed to render AST visualization to {path}: {e.message}"]

def draw (disk : Disk m) (path : String) (format : Option String) (trees : List Node) :
    m (List Print) := do
  match format with
  | none => return drawingFailure path .noFormat
  | some format =>
    match ← (drawTo disk path format trees).run with
    | .ok () => return [.line .diagnostics s!"Wrote AST visualization to {path}.{format}"]
    | .error e => return drawingFailure path e

end Kaleidoscope
