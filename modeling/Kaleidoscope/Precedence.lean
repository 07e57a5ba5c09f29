import Kaleidoscope.Datum
import Kaleidoscope.Text.Integer

/-! Precedence tables: which characters are binary operators and how tightly they bind. A level
that is not positive makes its character no operator, as if it had no entry. -/

set_option autoImplicit false

namespace Kaleidoscope

structure Precedence where
  entries : List (Char × Int)
  deriving DecidableEq, Repr

namespace Precedence

def standard : Precedence := ⟨[('<', 10), ('+', 20), ('-', 20), ('*', 40)]⟩

def entry (p : Precedence) (op : Char) : Int := (p.entries.lookup op).getD 0

/-- The level of an operator; no operator has level -1. -/
def level (p : Precedence) (op : Char) : Int := if p.entry op ≤ 0 then -1 else p.entry op

theorem level_pos_or (p : Precedence) (op : Char) : 0 < p.level op ∨ p.level op = -1 := by
  unfold level
  split <;> omega

theorem level_pos_iff (p : Precedence) (op : Char) : 0 < p.level op ↔ 0 < p.entry op := by
  unfold level
  split <;> omega

theorem level_of_pos {p : Precedence} {op : Char} (h : 0 < p.entry op) :
    p.level op = p.entry op := if_neg (by omega)

def setEntry (op : Char) (level : Int) : List (Char × Int) → List (Char × Int)
  | [] => [(op, level)]
  | e :: es => if e.1 = op then (op, level) :: es else e :: setEntry op level es

def set (p : Precedence) (op : Char) (level : Int) : Precedence := ⟨setEntry op level p.entries⟩

inductive TableError where
  | badOperator (key : Datum)
  | badLevel (op : Char) (level : Datum)
  deriving Repr

def TableError.message : TableError → String
  | .badOperator key => s!"Binary operator must be a single character: {key.shown}"
  | .badLevel op level =>
    s!"Precedence of {Text.quoted op.toString} must be an integer: {level.shown}"

def sameKey : Datum → Datum → Bool
  | .text a, .text b => a == b
  | _, _ => false

/-- A repeated key keeps its first place and takes the last level. -/
def mergeEntry (key level : Datum) : List (Datum × Datum) → List (Datum × Datum)
  | [] => [(key, level)]
  | e :: es => if sameKey e.1 key then (e.1, level) :: es else e :: mergeEntry key level es

def checkEntry : Datum × Datum → Except TableError (Char × Int)
  | (.text s, level) =>
    match s.toList with
    | [op] =>
      match level with
      | .integer n => .ok (op, n)
      | _ => .error (.badLevel op level)
    | _ => .error (.badOperator (.text s))
  | (key, _) => .error (.badOperator key)

def ofEntries (entries : List (Datum × Datum)) : Except TableError Precedence := do
  let merged := entries.foldl (fun es e => mergeEntry e.1 e.2 es) []
  return ⟨← merged.mapM checkEntry⟩

def table (p : Precedence) : List (Datum × Datum) :=
  p.entries.map fun (op, level) => (.text op.toString, .integer level)

inductive OptionError where
  | malformed (option : String)
  | badLevel (error : Text.IntegerError)
  deriving DecidableEq, Repr

def OptionError.message : OptionError → String
  | .malformed option =>
    s!"expected OP=PRECEDENCE with a single-character OP, got {Text.quoted option}"
  | .badLevel error => error.message

/-- Reads an operator, an equals sign and a level. The operator may be the equals sign itself. -/
def readOption (option : String) : Except OptionError (Char × Int) :=
  match option.toList with
  | op :: '=' :: level =>
    if level.contains '=' then .error (.malformed option)
    else
      match Text.readInteger (String.ofList level) with
      | .ok n => .ok (op, n)
      | .error e => .error (.badLevel e)
  | _ => .error (.malformed option)

end Precedence

end Kaleidoscope
