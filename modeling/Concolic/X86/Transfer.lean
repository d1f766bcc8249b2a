import Concolic.X86.Arithmetic

/-
  x86 instructions that move data, and those that set single flags.
-/

namespace Concolic

open Step

namespace X86

def mov : Step Unit := do
  let dst ← operand 0
  let src ← operand 1
  let value ← readSized src dst.bits
  discard (assign dst value "MOV operation" (assignTaint dst src))

/-- Moves from a narrower operand, extended by its sign or by zeros. -/
def extend (signed : Bool) : Step Unit := do
  let dst ← operand 0
  let src ← operand 1
  let value ← read src
  let extended ←
    if signed then Build.signExtend dst.bits value else Build.zeroExtend dst.bits value
  let comment := if signed then "MOVSX operation" else "MOVZX operation"
  discard (assign dst extended comment (assignTaint dst src))

/-- Loads an address; only the registers it is computed from taint it. -/
def lea : Step Unit := do
  let dst ← operand 0
  match ← operand 1 with
  | .memory access =>
    let address ← effectiveAddress access
    let value ← Build.resize address dst.bits
    discard (assign dst value "LEA operation" do
      let taint := (← get).taint
      setTaint dst (taint.isOptional access.base || taint.isOptional access.index))
  | _ => refuse .leaSource

/-- Exchanges two operands together with their taint. -/
def xchg : Step Unit := do
  let p ← readPair
  let dstTainted ← isTainted p.dst
  let srcTainted ← isTainted p.src
  let first ← write p.dst p.right "XCHG operation"
  let second ← write p.src p.left "XCHG operation"
  let firstTainted ← setTaint p.dst srcTainted
  let secondTainted ← setTaint p.src dstTainted
  stamp first firstTainted
  stamp second secondTainted

/-- Reverses the bytes. -/
def bswap : Step Unit := do
  let dst ← operand 0
  let value ← read dst
  let parts ← (List.range (dst.bits / 8)).mapM fun i =>
    (Build.extract (i * 8 + 7) (i * 8) value : Step Formula)
  let swapped ← Build.concatMany parts
  discard (assign dst swapped "BSWAP operation" (isTainted dst))

/-- Extends a part of the accumulator by its sign, in place. -/
def widen (source target : Nat) : Step Unit := do
  let dst ← register target
  let value ← readRegisterId source
  let extended ← Build.signExtend dst.bits value
  let tainted ← isRegisterTainted source
  writeRegister target extended "Sign extend accumulator" tainted

/-- Fills a register with the sign of a part of the accumulator. -/
def spread (source target : Nat) : Step Unit := do
  let value ← readRegisterId source
  let extended ← Build.signExtend (value.width * 2) value
  let top ← Build.minus (value.width * 2) 1
  let high ← Build.extract top value.width extended
  let tainted ← isRegisterTainted source
  writeRegister target high "Sign extend accumulator" tainted

/-- Sets the destination to one or zero by a condition. -/
def setIf (condition : Condition) : Step Unit := do
  let (holds, tainted) ← condition.read
  let dst ← operand 0
  let value ← Build.zeroExtend dst.bits holds
  discard (assign dst value "SETcc operation" (setTaint dst tainted))

/-- Moves by a condition; the taint of the source counts only if it moves. -/
def moveIf (condition : Condition) : Step Unit := do
  let (holds, tainted) ← condition.read
  let p ← readPair
  let value ← Build.ite holds p.right p.left
  let moves ← evaluate holds
  let dstTainted ← isTainted p.dst
  let srcTainted ← isTainted p.src
  discard (assign p.dst value "CMOVcc operation"
    (setTaint p.dst (tainted || dstTainted || (moves ≠ 0 && srcTainted))))

namespace ControlFlag

def register : ControlFlag → Nat
  | carry => cf
  | direction => df
  | interrupt => interruptFlag

def name : ControlFlag → String
  | carry => "carry"
  | direction => "direction"
  | interrupt => "interrupt"

end ControlFlag

def setFlag (flag : ControlFlag) (value : Bool) : Step Unit := do
  let f ← Build.flag value
  let verb := if value then "Sets " else "Clears "
  writeRegister flag.register f (verb ++ flag.name ++ " flag") false

def complementCarry : Step Unit := do
  let carry ← readRegisterId cf
  let f ← Build.not carry
  let tainted ← isRegisterTainted cf
  writeRegister cf f "Complements carry flag" tainted

end X86

end Concolic
