import Kaleidoscope.Double.Written
import Kaleidoscope.Text.Quoted

/-! Values of any type, as a configuration may hold them where an operator or a level is due. -/

set_option autoImplicit false

namespace Kaleidoscope

inductive Datum where
  | null
  | bool (b : Bool)
  | integer (n : Int)
  | double (v : Double)
  | text (s : String)
  | list (xs : List Datum)
  | record (fields : List (String × Datum))
  deriving Repr, Inhabited

mutual

def Datum.shown : Datum → String
  | .null => "None"
  | .bool b => if b then "True" else "False"
  | .integer n => toString n
  | .double v => v.written
  | .text s => Text.quoted s
  | .list xs => "[" ++ ", ".intercalate (Datum.shownAll xs) ++ "]"
  | .record fields => "\x7b" ++ ", ".intercalate (Datum.shownFields fields) ++ "\x7d"

def Datum.shownAll : List Datum → List String
  | [] => []
  | x :: xs => x.shown :: Datum.shownAll xs

def Datum.shownFields : List (String × Datum) → List String
  | [] => []
  | (key, x) :: fields => (Text.quoted key ++ ": " ++ x.shown) :: Datum.shownFields fields

end

end Kaleidoscope
