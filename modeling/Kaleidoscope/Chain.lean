import Kaleidoscope.Node

/-! Chains of binary operators. Each operator takes the operands between it and the nearest looser
operator on either side, and of equally loose ones the left is taken first. The tree is built in
one pass: `Pending` operators wait for their right operand, tightest on top. -/

set_option autoImplicit false

namespace Kaleidoscope

structure Link where
  operator : Token
  level : Int
  operand : Node
  deriving Repr

structure Pending where
  left : Node
  operator : Token
  level : Int
  deriving Repr

namespace Chain

def join (left : Node) (operator : Token) (right : Node) : Node :=
  .binary operator.text left right operator.start

/-- Closes the operators that bind at least as tightly as `level`. -/
def reduce (level : Int) : List Pending → Node → List Pending × Node
  | [], right => ([], right)
  | p :: ps, right =>
    if level ≤ p.level then reduce level ps (join p.left p.operator right) else (p :: ps, right)

def close : List Pending → Node → Node
  | [], right => right
  | p :: ps, right => close ps (join p.left p.operator right)

def grow : List Pending → Node → List Link → Node
  | ps, last, [] => close ps last
  | ps, last, l :: ls =>
    let (ps, left) := reduce l.level ps last
    grow (⟨left, l.operator, l.level⟩ :: ps) l.operand ls

def tree (first : Node) (links : List Link) : Node := grow [] first links

end Chain

end Kaleidoscope
