import Kaleidoscope.Text.Quoted

/-! Paths and what can be wrong with them. -/

set_option autoImplicit false

namespace Kaleidoscope

/-- A malformed path is refused before any file is looked for. -/
inductive PathFault where
  | malformed
  | missing | present | notDirectory | isDirectory
  | other (code : Nat) (reason : String)
  deriving DecidableEq, Repr

structure PathError where
  fault : PathFault
  path : String
  deriving DecidableEq, Repr

def PathFault.code? : PathFault → Option Nat
  | .malformed => none
  | .missing => some 2
  | .present => some 17
  | .notDirectory => some 20
  | .isDirectory => some 21
  | .other code _ => some code

def PathFault.reason : PathFault → String
  | .malformed => "embedded null byte"
  | .missing => "No such file or directory"
  | .present => "File exists"
  | .notDirectory => "Not a directory"
  | .isDirectory => "Is a directory"
  | .other _ reason => reason

def PathError.message (e : PathError) : String :=
  match e.fault.code? with
  | none => e.fault.reason
  | some code => s!"[Errno {code}] {e.fault.reason}: {Text.quoted e.path}"

namespace Path

def splitSlashes : List Char → List (List Char)
  | [] => [[]]
  | c :: cs =>
    match splitSlashes cs with
    | [] => [[c]]
    | part :: parts => if c = '/' then [] :: part :: parts else (c :: part) :: parts

def parts (path : String) : List String := (splitSlashes path.toList).map String.ofList

def ofParts (ps : List String) : String := "/".intercalate ps

def lastPart (path : String) : String := (parts path).getLast?.getD ""

def isMalformed (path : String) : Bool := path.toList.contains '\x00'

def isAbsolute (path : String) : Bool := path.toList.head? == some '/'

end Path

end Kaleidoscope
