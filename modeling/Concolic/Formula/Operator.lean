import Concolic.Word

/-
  The operators of formulas: fifteen binary operators on words of one width,
  ten comparisons with a one-bit result, and two unary operators. Each has its
  value on concrete words and its name in the SMT-LIB theory of bit-vectors.
-/

namespace Concolic

/-- A binary operator; both operands and the result have one width. -/
inductive ArithOp where
  | add | sub | mul
  | udiv | sdiv | urem | srem
  | and | or | xor
  | shl | lshr | ashr
  | rol | ror
  deriving DecidableEq, Repr

/-- A comparison of two words of one width. -/
inductive CompareOp where
  | eq | ne
  | ult | ule | ugt | uge
  | slt | sle | sgt | sge
  deriving DecidableEq, Repr

inductive UnaryOp where
  | not | neg
  deriving DecidableEq, Repr

namespace ArithOp

/-- The operator's value on two words. -/
def apply : ArithOp → (width a b : Nat) → Nat
  | add => Word.add
  | sub => Word.sub
  | mul => Word.mul
  | udiv => Word.udiv
  | sdiv => Word.sdiv
  | urem => Word.urem
  | srem => Word.srem
  | and => Word.and
  | or => Word.or
  | xor => Word.xor
  | shl => Word.shl
  | lshr => Word.lshr
  | ashr => Word.ashr
  | rol => Word.rol
  | ror => Word.ror

/-- Whether the operands may be exchanged. The commutative operators are also
the associative ones. -/
def commutative : ArithOp → Bool
  | add | mul | and | or | xor => true
  | _ => false

def smtName : ArithOp → String
  | add => "bvadd"
  | sub => "bvsub"
  | mul => "bvmul"
  | udiv => "bvudiv"
  | sdiv => "bvsdiv"
  | urem => "bvurem"
  | srem => "bvsrem"
  | and => "bvand"
  | or => "bvor"
  | xor => "bvxor"
  | shl => "bvshl"
  | lshr => "bvlshr"
  | ashr => "bvashr"
  | rol => "rotate_left"
  | ror => "rotate_right"

/-- A number for each operator, for digests. -/
def code : ArithOp → UInt64
  | add => 1 | sub => 2 | mul => 3
  | udiv => 4 | sdiv => 5 | urem => 6 | srem => 7
  | and => 8 | or => 9 | xor => 10
  | shl => 11 | lshr => 12 | ashr => 13
  | rol => 14 | ror => 15

end ArithOp

namespace CompareOp

/-- Whether the comparison holds between two words; the signed ones read both
in two's complement. -/
def holds : CompareOp → (width a b : Nat) → Bool
  | eq, _, a, b => a == b
  | ne, _, a, b => a != b
  | ult, _, a, b => decide (a < b)
  | ule, _, a, b => decide (a ≤ b)
  | ugt, _, a, b => decide (a > b)
  | uge, _, a, b => decide (a ≥ b)
  | slt, width, a, b => decide (Word.signed width a < Word.signed width b)
  | sle, width, a, b => decide (Word.signed width a ≤ Word.signed width b)
  | sgt, width, a, b => decide (Word.signed width a > Word.signed width b)
  | sge, width, a, b => decide (Word.signed width a ≥ Word.signed width b)

/-- Whether the comparison holds between a word and itself. -/
def reflexive : CompareOp → Bool
  | eq | ule | uge | sle | sge => true
  | _ => false

def smtName : CompareOp → String
  | eq => "="
  | ne => "distinct"
  | ult => "bvult"
  | ule => "bvule"
  | ugt => "bvugt"
  | uge => "bvuge"
  | slt => "bvslt"
  | sle => "bvsle"
  | sgt => "bvsgt"
  | sge => "bvsge"

/-- A number for each comparison, for digests. -/
def code : CompareOp → UInt64
  | eq => 1 | ne => 2
  | ult => 3 | ule => 4 | ugt => 5 | uge => 6
  | slt => 7 | sle => 8 | sgt => 9 | sge => 10

end CompareOp

namespace UnaryOp

def apply : UnaryOp → (width a : Nat) → Nat
  | not => Word.not
  | neg => Word.neg

def smtName : UnaryOp → String
  | not => "bvnot"
  | neg => "bvneg"

/-- A number for each operator, for digests. -/
def code : UnaryOp → UInt64
  | not => 1 | neg => 2

end UnaryOp

end Concolic
