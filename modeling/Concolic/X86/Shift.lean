import Concolic.X86.Flags
import Concolic.X86.Opcode

/-
  x86 shifts and rotations. The count is taken modulo 64 for 64-bit operands and
  modulo 32 for others, and a count of zero leaves every flag as it is.
-/

namespace Concolic

open Step

namespace X86

/-- The bits of a count that are used. -/
def countMask (bits : Nat) : Nat := if bits = 64 then 0x3f else 0x1f

/-- The count of a shift in the width of its destination, and its taint. A
missing count is one. -/
def shiftCount (bits : Nat) : Step (Formula × Bool) := do
  match ← operand? 1 with
  | none => return (← Build.constant 1 bits, false)
  | some (.immediate imm) =>
    return (← Build.constant (imm.value.toNat &&& countMask bits) bits, false)
  | some src =>
    let value ← read src
    let count ← Build.resize value bits
    let mask ← Build.constant (countMask bits) bits
    let masked ← Build.and count mask
    return (masked, ← isTainted src)

namespace Shift

def op : Shift → ArithOp
  | left => .shl
  | logicalRight => .lshr
  | arithmeticRight => .ashr

def comment : Shift → String
  | left => "SHL operation"
  | logicalRight => "SHR operation"
  | arithmeticRight => "SAR operation"

/-- The operand shifted such that the last bit to leave it is the lowest. -/
def lastOut (kind : Shift) (operand count one : Formula) : Build Formula := do
  match kind with
  | left =>
    let width ← Build.constant operand.width operand.width
    let rest ← Build.sub width count
    Build.lshr operand rest
  | logicalRight =>
    let less ← Build.sub count one
    Build.lshr operand less
  | arithmeticRight =>
    let less ← Build.sub count one
    Build.ashr operand less

/-- The overflow flag of a shift by one: whether the sign changes. -/
def overflow (kind : Shift) (operand : Formula) : Build Formula := do
  match kind with
  | left =>
    let top ← Flags.sign operand
    let below ← Build.minus operand.width 2
    let next ← Build.extract below below operand
    Build.xor top next
  | logicalRight => Flags.sign operand
  | arithmeticRight => Build.flag false

end Shift

def shift (kind : Shift) : Step Unit := do
  let dst ← operand 0
  let bits := dst.bits
  let operand ← read dst
  let (count, countTainted) ← shiftCount bits
  let result ← Build.arith kind.op operand count
  let oldCarry ← readRegisterId cf
  let oldOverflow ← readRegisterId of
  let oldParity ← readRegisterId pf
  let oldSign ← readRegisterId sf
  let oldZero ← readRegisterId zf
  let tainted ← assign dst result kind.comment do
    let dstTainted ← isTainted dst
    setTaint dst (dstTainted || countTainted)
  let one ← Build.constant 1 bits
  let unmoved ← Flags.isZero count
  let single ← Build.eq count one
  let out ← kind.lastOut operand count one
  let newCarry ← Build.extract 0 0 out
  let carry ← Build.ite unmoved oldCarry newCarry
  let newOverflow ← kind.overflow operand
  let overflow ← Build.ite single newOverflow oldOverflow
  let newParity ← parity result
  let even ← Build.ite unmoved oldParity newParity
  let newSign ← Flags.sign result
  let sign ← Build.ite unmoved oldSign newSign
  let newZero ← Flags.isZero result
  let zero ← Build.ite unmoved oldZero newZero
  undefineUnless unmoved af
  writeRegister cf carry "Carry flag" tainted
  writeRegister of overflow "Overflow flag" tainted
  writeRegister pf even "Parity flag" tainted
  writeRegister sf sign "Sign flag" tainted
  writeRegister zf zero "Zero flag" tainted

/-- The carry and overflow flags of a rotation by one or more. -/
def rotationFlags (left : Bool) (result : Formula) : Build (Formula × Formula) := do
  if left then
    let low ← Build.extract 0 0 result
    let high ← Flags.sign result
    return (low, ← Build.xor high low)
  else
    let high ← Flags.sign result
    let below ← Build.minus result.width 2
    let next ← Build.extract below below result
    return (high, ← Build.xor high next)

/-- The count of a rotation and its taint. It is taken at its present value unless
it may be symbolic. -/
def rotationCount (bits : Nat) : Step (Formula × Bool) := do
  let (given, tainted) ← shiftCount bits
  if ← isOn .symbolizeIndexRotation then return (given, tainted)
  else
    let value ← evaluate given
    let count ← Build.constant value bits
    return (count, tainted)

/-- Rotates; only carry and overflow change. -/
def rotate (left : Bool) : Step Unit := do
  let dst ← operand 0
  let bits := dst.bits
  let operand ← read dst
  let (count, countTainted) ← rotationCount bits
  let result ← Build.arith (if left then .rol else .ror) operand count
  let oldCarry ← readRegisterId cf
  let oldOverflow ← readRegisterId of
  let comment := if left then "ROL operation" else "ROR operation"
  let tainted ← assign dst result comment do
    let dstTainted ← isTainted dst
    setTaint dst (dstTainted || countTainted)
  let unmoved ← Flags.isZero count
  let one ← Build.constant 1 bits
  let single ← Build.eq count one
  let (newCarry, newOverflow) ← rotationFlags left result
  let carry ← Build.ite unmoved oldCarry newCarry
  let overflow ← Build.ite single newOverflow oldOverflow
  writeRegister cf carry "Carry flag" tainted
  writeRegister of overflow "Overflow flag" tainted

end X86

end Concolic
