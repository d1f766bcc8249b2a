import Concolic.AArch64.Condition

/-
  The meaning of every AArch64 operation.

  Correspondence (interface ↔ here), where more than the spelling differs:
    `nzcv`, `unary`, `load`, `store` ↔ `writeFlags`, `moveUnary`, `ldr`, `str`
    `b`, `bl`, `br` ↔ `branch`, `branchLink`, `branchTo`
    `b_cond`, `compare_branch` ↔ `branchIf`, `branchZero`
-/

namespace Concolic

open Step

namespace AArch64

namespace Binary

def op : Binary → ArithOp
  | add => .add
  | sub => .sub
  | and => .and
  | orr => .or
  | eor => .xor

def comment : Binary → String
  | add => "ADD operation"
  | sub => "SUB operation"
  | and => "AND operation"
  | orr => "ORR operation"
  | eor => "EOR operation"

def flagKind : Binary → FlagKind
  | add => .arithmetic .sum
  | sub => .arithmetic .difference
  | and | orr | eor => .bitwise

end Binary

/-- Combines two sources, both read in the width of the destination. -/
def binary (kind : Binary) (setFlags : Bool) : Step Unit := do
  let dst ← operand 0
  let src₁ ← operand 1
  let src₂ ← operand 2
  let left ← readSized src₁ dst.bits
  let right ← readSized src₂ dst.bits
  let result ← Build.arith kind.op left right
  let tainted ← assign dst result kind.comment (unionTaint dst src₁ src₂)
  if setFlags then writeFlags kind.flagKind left right result tainted

def cmp : Step Unit := do
  let src₁ ← operand 0
  let src₂ ← operand 1
  let left ← read src₁
  let right ← readSized src₂ src₁.bits
  let result ← Build.sub left right
  let firstTainted ← isTainted src₁
  let secondTainted ← isTainted src₂
  let tainted := firstTainted || secondTainted
  volatile result "CMP operation" tainted
  writeFlags (.arithmetic .difference) left right result tainted

/-- The operands of a move: destination, source, and the source's formula in
the width of the destination. -/
def readMove : Step (Operand × Operand × Formula) := do
  let dst ← operand 0
  let src ← operand 1
  let value ← readSized src dst.bits
  return (dst, src, value)

def mov : Step Unit := do
  let (dst, src, value) ← readMove
  discard (assign dst value "MOV operation" (assignTaint dst src))

/-- Moves what a unary operator makes of the source. -/
def moveUnary (op : UnaryOp) (comment : String) : Step Unit := do
  let (dst, src, value) ← readMove
  let result ← Build.unary op value
  discard (assign dst result comment (assignTaint dst src))

def mvn : Step Unit := moveUnary .not "MVN operation"

def neg : Step Unit := moveUnary .neg "NEG operation"

/-- Loads the low sixteen bits of an immediate, shifted left by the low 32 bits of a
further immediate. -/
def movz : Step Unit := do
  let dst ← operand 0
  match ← operand 1 with
  | .immediate imm =>
    let shift := match ← operand? 2 with
      | some (.immediate amount) => amount.value.toUInt32.toNat
      | _ => 0
    let value ← shiftLeft (Word.truncate 16 imm.value.toNat) shift
    let f ← Build.constant value dst.bits
    discard (assign dst f "MOVZ operation" (setTaint dst false))
  | _ => refuse .movzSource

/-- Loads memory, extended by zeros or cut to the destination. -/
def ldr : Step Unit := do
  let dst ← operand 0
  let src ← operand 1
  let value ← read src
  let resized ← Build.resize value dst.bits
  discard (assign dst resized "LDR operation" (assignTaint dst src))

/-- Stores a register, extended by zeros or cut to the access. -/
def str : Step Unit := do
  let src ← operand 0
  let dst ← operand 1
  let value ← read src
  let resized ← Build.resize value dst.bits
  discard (assign dst resized "STR operation" (assignTaint dst src))

/-- The width of branch targets. -/
def targetWidth : Nat := 64

def branch : Step Unit := do
  let src ← operand 0
  let target ← readSized src targetWidth
  jump target false false

/-- Branches and leaves the address of the following instruction in the link
register. -/
def branchLink : Step Unit := do
  let src ← operand 0
  let target ← readSized src targetWidth
  let link ← Build.constant (← fallThrough).toNat targetWidth
  writeRegister x30 link "Link register" false
  jump target false false

/-- Branches to the value of an operand. -/
def branchTo (src : Operand) : Step Unit := do
  let target ← readSized src targetWidth
  let tainted ← isTainted src
  jump target tainted false

/-- Returns through an operand, or else through the link register. -/
def ret : Step Unit := do
  match ← operand? 0 with
  | some src => branchTo src
  | none => branchTo (.register (← register x30))

def branchIf (condition : Condition) : Step Unit := do
  let (holds, tainted) ← condition.read
  let src ← operand 0
  let target ← readSized src targetWidth
  let chosen ← choose holds target targetWidth
  jump chosen tainted true

/-- Branches by whether a register is zero. -/
def branchZero (nonZero : Bool) : Step Unit := do
  let src ← operand 0
  let value ← read src
  let targetOperand ← operand 1
  let target ← readSized targetOperand targetWidth
  let next ← Build.constant (← fallThrough).toNat targetWidth
  let zero ← Build.zero value.width
  let holds ← Build.compare (if nonZero then .ne else .eq) value zero
  let chosen ← Build.ite holds target next
  let tainted ← isTainted src
  jump chosen tainted true

/-- Executes an operation. -/
def Op.execute : Op → Step (Option Fault)
  | binary kind setFlags => complete (AArch64.binary kind setFlags)
  | cmp => complete AArch64.cmp
  | mov => complete AArch64.mov
  | movz => complete AArch64.movz
  | mvn => complete AArch64.mvn
  | neg => complete AArch64.neg
  | ldr => complete AArch64.ldr
  | str => complete AArch64.str
  | branch => completeBranch AArch64.branch
  | branchIf condition => completeBranch (AArch64.branchIf condition)
  | branchLink => completeBranch AArch64.branchLink
  | branchRegister => completeBranch do branchTo (← operand 0)
  | ret => completeBranch AArch64.ret
  | branchZero nonZero => completeBranch (AArch64.branchZero nonZero)

end AArch64

end Concolic
