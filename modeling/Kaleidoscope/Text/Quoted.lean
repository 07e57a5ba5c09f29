import Kaleidoscope.Text.Hex
import Kaleidoscope.Text.Printable

/-! Quoted text, as messages show it: on one line and with printable characters only. Single
quotes are used unless the text holds one and no double quote. -/

set_option autoImplicit false

namespace Kaleidoscope.Text

def enclosing (s : String) : Char :=
  if s.contains '\'' && !s.contains '"' then '"' else '\''

def escaped (quote c : Char) : List Char :=
  if c = '\\' ∨ c = quote then ['\\', c]
  else if c = '\n' then ['\\', 'n']
  else if c = '\r' then ['\\', 'r']
  else if c = '\t' then ['\\', 't']
  else if isPrintable c then [c]
  else if c.toNat < 0x100 then '\\' :: 'x' :: hexDigits 2 c.toNat
  else if c.toNat < 0x10000 then '\\' :: 'u' :: hexDigits 4 c.toNat
  else '\\' :: 'U' :: hexDigits 8 c.toNat

def quoted (s : String) : String :=
  let quote := enclosing s
  String.ofList (quote :: s.toList.flatMap (escaped quote) ++ [quote])

end Kaleidoscope.Text
