import Concolic.X86.Flags
import Concolic.X86.Opcode

/-
  x86 addition, subtraction, comparison and bitwise operations.
-/

namespace Concolic

open Step

namespace X86

/-- The operands of a two-operand instruction with their formulas; the source is
read in the width of the destination. -/
structure Pair where
  dst : Operand
  src : Operand
  left : Formula
  right : Formula

def readPair : Step Pair := do
  let dst ← operand 0
  let src ← operand 1
  let left ← read dst
  let right ← readSized src dst.bits
  return { dst, src, left, right }

/-- Whether one of the two operands is tainted. -/
def Pair.isTainted (p : Pair) : Step Bool := do
  let dst ← Step.isTainted p.dst
  let src ← Step.isTainted p.src
  return dst || src

/-- Adds or subtracts the source. -/
def combine (kind : Flags.Kind) (comment : String) : Step Unit := do
  let p ← readPair
  let result ← Build.arith kind.op p.left p.right
  let tainted ← assign p.dst result comment (unionTaint p.dst p.dst p.src)
  writeFlags kind { left := p.left, right := p.right, result, tainted }

def add : Step Unit := combine .sum "ADD operation"

def sub : Step Unit := combine .difference "SUB operation"

/-- The carry flag in the given width. -/
def readCarry (width : Nat) : Step Formula := do
  let carry ← readRegisterId cf
  Build.zeroExtend width carry

/-- Writes a result that depends on both operands and on the carry flag. -/
def assignWithCarry (p : Pair) (result : Formula) (comment : String) : Step Bool := do
  let operands ← p.isTainted
  let carry ← isRegisterTainted cf
  assign p.dst result comment (setTaint p.dst (operands || carry))

/-- A sum with a carry, or a difference with a borrow. -/
def withCarry (kind : Flags.Kind) (left right carry : Formula) : Build Formula := do
  match kind with
  | .sum =>
    let sum ← Build.add left right
    Build.add sum carry
  | .difference =>
    let subtrahend ← Build.add right carry
    Build.sub left subtrahend

/-- Adds or subtracts the source and the carry flag. -/
def combineWithCarry (kind : Flags.Kind) (comment : String) : Step Unit := do
  let p ← readPair
  let carry ← readCarry p.dst.bits
  let result ← withCarry kind p.left p.right carry
  let tainted ← assignWithCarry p result comment
  writeFlags kind { left := p.left, right := p.right, result, tainted }

def adc : Step Unit := combineWithCarry .sum "ADC operation"

def sbb : Step Unit := combineWithCarry .difference "SBB operation"

def cmp : Step Unit := do
  let p ← readPair
  let result ← Build.sub p.left p.right
  let tainted ← p.isTainted
  volatile result "CMP operation" tainted
  writeFlags .difference { left := p.left, right := p.right, result, tainted }

namespace Bitwise

def op : Bitwise → ArithOp
  | and => .and
  | or => .or
  | xor => .xor

def comment : Bitwise → String
  | and => "AND operation"
  | or => "OR operation"
  | xor => "XOR operation"

end Bitwise

/-- Whether both operands are one register. -/
def Pair.sameRegister (p : Pair) : Bool :=
  match p.dst, p.src with
  | .register a, .register b => a.id == b.id
  | _, _ => false

/-- Writes the result; a register combined with itself by exclusive or is zero
whatever it held, so its taint goes away. -/
def assignBitwise (kind : Bitwise) (p : Pair) (result : Formula) : Step Bool :=
  assign p.dst result kind.comment
    (if kind = .xor && p.sameRegister then setTaint p.dst false
    else unionTaint p.dst p.dst p.src)

def bitwise (kind : Bitwise) : Step Unit := do
  let p ← readPair
  let result ← Build.arith kind.op p.left p.right
  let tainted ← assignBitwise kind p result
  writeBitwiseFlags result tainted

def test : Step Unit := do
  let p ← readPair
  let result ← Build.and p.left p.right
  let tainted ← p.isTainted
  volatile result "TEST operation" tainted
  writeBitwiseFlags result tainted

/-- Adds or subtracts one; the carry flag keeps its value. -/
def count (kind : Flags.Kind) (comment : String) : Step Unit := do
  let dst ← operand 0
  let left ← read dst
  let right ← Build.constant 1 dst.bits
  let result ← Build.arith kind.op left right
  let tainted ← assign dst result comment (Step.isTainted dst)
  let outcome := { left, right, result, tainted }
  writeAdjust outcome
  writeOverflow kind outcome
  writeResultFlags result tainted

def inc : Step Unit := count .sum "INC operation"

def dec : Step Unit := count .difference "DEC operation"

/-- Negates; carry says whether the operand was not zero, overflow whether it
was the least signed number. -/
def neg : Step Unit := do
  let dst ← operand 0
  let operand ← read dst
  let result ← Build.neg operand
  let tainted ← assign dst result "NEG operation" (Step.isTainted dst)
  let changed ← Build.xor operand result
  let adjusted ← adjust changed
  writeRegister af adjusted "Adjust flag" tainted
  let zero ← Build.zero operand.width
  let carry ← Build.ne operand zero
  writeRegister cf carry "Carry flag" tainted
  let both ← Build.and result operand
  let overflow ← Flags.sign both
  writeRegister of overflow "Overflow flag" tainted
  writeResultFlags result tainted

/-- Inverts every bit and leaves the flags alone. -/
def not : Step Unit := do
  let dst ← operand 0
  let operand ← read dst
  let result ← Build.not operand
  discard (assign dst result "NOT operation" (Step.isTainted dst))

end X86

end Concolic
