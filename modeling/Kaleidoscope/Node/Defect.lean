import Kaleidoscope.Node

/-! What keeps a tree from being shown. Each view has its own demands, and names the first node in
its way. No parsed tree has a defect. -/

set_option autoImplicit false

namespace Kaleidoscope

inductive Defect where
  | unprintable (className : String)
  | undocumented (className : String)
  | nameless (className : String)
  | neverAnonymous (className : String)
  | noInteger
  | notReal
  | kindless
  | nothing
  deriving DecidableEq, Repr

def Defect.message : Defect → String
  | .unprintable c => s!"Cannot print {c}"
  | .undocumented c => s!"Cannot convert {c} to JSON"
  | .nameless c => s!"'{c}' object has no attribute 'name'"
  | .neverAnonymous c => s!"'{c}' object has no attribute 'is_anonymous'"
  | .noInteger => "'str' object has no attribute 'is_integer'"
  | .notReal => "must be real number, not str"
  | .kindless => "'NoneType' object has no attribute 'type'"
  | .nothing => "'NoneType' object is not iterable"

def unlessDefective {α : Type} (defect? : Option Defect) (view : α) : Except Defect α :=
  match defect? with
  | some d => .error d
  | none => .ok view

@[simp] theorem unlessDefective_none {α : Type} (view : α) :
    unlessDefective none view = .ok view := rfl

end Kaleidoscope
