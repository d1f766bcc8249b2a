import Concolic.Formula.Build

/-
  Formulas of condition flags.

  The flags of a sum and of a difference are computed from the operands `a`, `b`
  and the result, by the recurrence for the carry into and out of the highest
  bit, so they also hold where a carry or a borrow went into the result.
  `differ` is the exclusive or of the operands.
-/

namespace Concolic

namespace Flags

/-- What a result is of its operands. -/
inductive Kind where
  | sum
  | difference
  deriving DecidableEq, Repr

def Kind.op : Kind → ArithOp
  | sum => .add
  | difference => .sub

/-- The highest bit. -/
def sign (f : Formula) : Build Formula := do
  let top ← Build.minus f.width 1
  Build.extract top top f

/-- Whether every bit is zero. -/
def isZero (f : Formula) : Build Formula := do
  let zero ← Build.zero f.width
  Build.eq f zero

/-- The carry out of a sum, or the borrow out of a difference. -/
def carry (kind : Kind) (differ a b result : Formula) : Build Formula := do
  match kind with
  | .sum =>
    let both ← Build.and a b
    let changed ← Build.xor differ result
    let passed ← Build.and changed differ
    let out ← Build.xor both passed
    sign out
  | .difference =>
    let changed ← Build.xor differ result
    let moved ← Build.xor a result
    let passed ← Build.and moved differ
    let out ← Build.xor changed passed
    sign out

/-- Whether the signed range was left: the operands of a sum have one sign and the
result the other, or those of a difference have different signs and the result not
that of the first. -/
def overflow (kind : Kind) (differ a b result : Formula) : Build Formula := do
  match kind with
  | .sum =>
    let inverse ← Build.not b
    let alike ← Build.xor a inverse
    let moved ← Build.xor a result
    let out ← Build.and alike moved
    sign out
  | .difference =>
    let moved ← Build.xor a result
    let out ← Build.and differ moved
    sign out

end Flags

end Concolic
