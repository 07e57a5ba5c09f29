import Kaleidoscope.Diagram
import Kaleidoscope.Files.Tree

/-! What a run asks of its surroundings: files, and a program that draws diagrams. -/

set_option autoImplicit false

namespace Kaleidoscope

/-- A request to draw the DOT text that stands at a path, into a file beside it. -/
structure DrawingOrder where
  path : String
  format : String
  deriving DecidableEq, Repr

namespace DrawingOrder

def result (o : DrawingOrder) : String := s!"{o.path}.{o.format}"

def arguments (o : DrawingOrder) : List String :=
  ["-Kdot", "-T" ++ o.format, "-O", Path.lastPart o.path]

end DrawingOrder

inductive DrawingError where
  | noProgram
  | exited (order : DrawingOrder) (status : Nat) (complaint : String)
  deriving DecidableEq, Repr

def DrawingError.message : DrawingError → String
  | .noProgram =>
    "failed to execute PosixPath('dot'), make sure the Graphviz executables are on your " ++
      "systems' PATH"
  | .exited order status complaint =>
    let command := ", ".intercalate ("PosixPath('dot')" :: order.arguments.map Text.quoted)
    s!"Command '[{command}]' returned non-zero exit status {status}. " ++
      s!"[stderr: b{Text.quoted complaint}]"

def DrawingError.complaint : DrawingError → String
  | .noProgram => ""
  | .exited _ _ complaint => complaint

structure Disk (m : Type → Type) where
  read : String → m (Except PathError Contents)
  write : String → String → m (Except PathError Unit)
  createParents : String → m (Except PathError Unit)
  remove : String → m (Except PathError Unit)
  draw : DrawingOrder → m (Except DrawingError Unit)

inductive DrawingProgram where
  | absent | works | fails
  deriving DecidableEq, Repr

structure Workspace where
  tree : FileTree
  program : DrawingProgram := .absent
  deriving DecidableEq, Repr

namespace Workspace

def update (change : FileTree → Except PathError FileTree) :
    StateM Workspace (Except PathError Unit) := fun w =>
  match change w.tree with
  | .ok tree => (.ok (), { w with tree })
  | .error e => (.error e, w)

/-- What was made before a failure stays. -/
def createParents (path : String) : StateM Workspace (Except PathError Unit) := fun w =>
  match FileTree.createParents path w.tree with
  | .ok () tree => (.ok (), { w with tree })
  | .error e tree => (.error e, { w with tree })

/-- What a working program writes: its own command line, then the text it was given. -/
def drawn (order : DrawingOrder) (dot : String) : String :=
  " ".intercalate ("dot" :: order.arguments) ++ "\n" ++ dot

def draw (order : DrawingOrder) : StateM Workspace (Except DrawingError Unit) := fun w =>
  match w.program with
  | .absent => (.error .noProgram, w)
  | .fails => (.error (.exited order 3 "dot: boom\n"), w)
  | .works =>
    match w.tree.read order.path with
    | .ok (.text dot) =>
      let tree := (w.tree.write order.result (drawn order dot)).toOption.getD w.tree
      (.ok (), { w with tree })
    | _ => (.ok (), w)

def disk : Disk (StateM Workspace) where
  read path := fun w => (w.tree.read path, w)
  write path text := update (·.write path text)
  createParents path := createParents path
  remove path := update (·.remove path)
  draw := draw

end Workspace

end Kaleidoscope
