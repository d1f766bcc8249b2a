import Concolic.X86.Condition

/-
  The x86 stack, and the jumps.
-/

namespace Concolic

open Step

namespace X86

/-- Moves the stack pointer and returns its new value. -/
def moveStack (delta : Int) : Step Formula := do
  let sp := (← arch).stackPointer
  let old ← readRegister sp
  let offset ← Build.constant (Word.wrap sp.bits delta) sp.bits
  let new ← Build.add old offset
  let tainted ← isRegisterTainted sp.id
  writeRegister sp.id new "Stack alignment" tainted
  return new

/-- The place on the stack at the present value of `pointer`. -/
def stackSlot (pointer : Formula) (bits : Nat) : Step Operand := do
  let address ← evaluate pointer
  let sp := (← arch).stackPointer
  return .memory ((Access.fixed address.toUInt64 bits).withBase sp)

/-- The number of bytes that an operand of `bits` bits takes on the stack. -/
def stackBytes (bits : Nat) : Int := (bits / 8 : Nat)

/-- Pushes an operand; an immediate takes the width of an address. -/
def push : Step Unit := do
  let src ← operand 0
  let arch ← arch
  let bits := match src with
    | .immediate _ => arch.addressWidth
    | src => src.bits
  let value ← readSized src bits
  let pointer ← moveStack (-stackBytes bits)
  let dst ← stackSlot pointer bits
  discard (assign dst value "PUSH operation" (assignTaint dst src))

/-- Pops an operand. The stack pointer does not move if it was itself popped. -/
def pop : Step Unit := do
  let dst ← operand 0
  let sp := (← arch).stackPointer
  let pointer ← readRegister sp
  let src ← stackSlot pointer dst.bits
  let value ← read src
  discard (assign dst value "POP operation" (assignTaint dst src))
  if dst.register?.map Register.parent ≠ some sp.parent then
    discard (moveStack (stackBytes dst.bits))

def call : Step Unit := do
  let width := (← arch).addressWidth
  let src ← operand 0
  let target ← readSized src width
  let tainted ← isTainted src
  let pointer ← moveStack (-stackBytes width)
  let slot ← stackSlot pointer width
  let next ← Build.constant (← fallThrough).toNat width
  discard (assign slot next "Saved Program Counter" (setTaint slot false))
  Step.jump target tainted false

/-- Returns, and drops as many further bytes from the stack as an immediate
says. -/
def ret : Step Unit := do
  let arch ← arch
  let pointer ← readRegister arch.stackPointer
  let slot ← stackSlot pointer arch.addressWidth
  let target ← read slot
  let tainted ← isTainted slot
  let extra : Int := match ← operand? 0 with
    | some (.immediate imm) => imm.value.toInt64.toInt
    | _ => 0
  let delta ← signedSum (stackBytes arch.addressWidth) extra
  discard (moveStack delta)
  Step.jump target tainted false

def jump : Step Unit := do
  let src ← operand 0
  let target ← readSized src (← arch).addressWidth
  let tainted ← isTainted src
  Step.jump target tainted false

def jumpIf (condition : Condition) : Step Unit := do
  let width := (← arch).addressWidth
  let (holds, tainted) ← condition.read
  let src ← operand 0
  let target ← readSized src width
  let chosen ← choose holds target width
  let srcTainted ← isTainted src
  Step.jump chosen (tainted || srcTainted) true

end X86

end Concolic
