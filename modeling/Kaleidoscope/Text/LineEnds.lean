/-! Line ends. A carriage return, alone or before a line feed, is read as a line feed. -/

set_option autoImplicit false

namespace Kaleidoscope.Text

def unifyLineEnds : List Char → List Char
  | [] => []
  | '\r' :: '\n' :: cs => '\n' :: unifyLineEnds cs
  | '\r' :: cs => '\n' :: unifyLineEnds cs
  | c :: cs => c :: unifyLineEnds cs

end Kaleidoscope.Text
