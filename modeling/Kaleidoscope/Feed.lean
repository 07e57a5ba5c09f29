import Kaleidoscope.Scanner

/-! The tokens of a source in the order in which they are delivered, with the number of characters
read by then. A fault is delivered in its place between two tokens. After the last delivery the
end of the input is answered for ever. -/

set_option autoImplicit false

namespace Kaleidoscope

inductive Delivery where
  | token (t : Token) (taken : Nat)
  | fault (f : Fault) (taken : Nat)
  deriving DecidableEq, Repr

structure Finish where
  position : Position
  taken : Nat
  deriving DecidableEq, Repr

structure Feed where
  current : Token
  taken : Nat
  upcoming : List Delivery
  finish : Finish
  deriving Repr

namespace Scanner

def deliveriesWithin : Nat → Scanner → List Delivery × Finish
  | 0, s => ([], ⟨s.position, s.source.taken⟩)
  | n + 1, s =>
    match next s with
    | .ok t s =>
      if t.kind = .endOfInput then ([], ⟨t.start, s.source.taken⟩)
      else
        let (later, finish) := deliveriesWithin n s
        (.token t s.source.taken :: later, finish)
    | .error f s =>
      let (later, finish) := deliveriesWithin n s
      (.fault f s.source.taken :: later, finish)

/-- One scan more than `scans`, since the source may raise a fault once. -/
def deliveries (s : Scanner) : List Delivery × Finish := deliveriesWithin (s.scans + 1) s

end Scanner

namespace Feed

def ofScanner (s : Scanner) : Feed :=
  let (upcoming, finish) := s.deliveries
  ⟨.endOfInput {}, s.source.taken, upcoming, finish⟩

def advance : EStateM Fault Feed Unit := fun feed =>
  match feed.upcoming with
  | [] =>
    .ok () { feed with current := .endOfInput feed.finish.position, taken := feed.finish.taken }
  | .token t taken :: later => .ok () { feed with current := t, taken, upcoming := later }
  | .fault f taken :: later => .error f { feed with taken, upcoming := later }

/-- Bounds how often the feed can still change. -/
def size (feed : Feed) : Nat :=
  feed.upcoming.length + if feed.current.kind = .endOfInput then 0 else 1

end Feed

end Kaleidoscope
