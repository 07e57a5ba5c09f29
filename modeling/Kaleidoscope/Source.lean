/-! A stream of characters, read one at a time. A stream may be set to fail once: the read that
comes when a given number of characters has been taken raises a fault, and later reads go on as
if nothing had happened. -/

set_option autoImplicit false

namespace Kaleidoscope

inductive Fault where
  | exhausted | interrupted | unreadable
  deriving DecidableEq, Repr, Inhabited

structure PendingFault where
  after : Nat
  fault : Fault
  deriving DecidableEq, Repr

structure Source where
  rest : List Char
  taken : Nat := 0
  pending : Option PendingFault := none
  deriving Repr

namespace Source

def ofText (text : String) : Source := { rest := text.toList }

def dueFault? (s : Source) : Option Fault :=
  (s.pending.filter (·.after == s.taken)).map (·.fault)

def read : EStateM Fault Source (Option Char) := fun s =>
  match s.dueFault? with
  | some f => .error f { s with pending := none }
  | none =>
    match s.rest with
    | [] => .ok none s
    | c :: cs => .ok (some c) { s with rest := cs, taken := s.taken + 1 }

end Source

end Kaleidoscope
