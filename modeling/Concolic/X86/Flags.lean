import Concolic.Flags
import Concolic.Step

/-
  The x86 status flags.

  They are written after the destination and always in one order: adjust, carry,
  overflow, parity, sign, zero.
-/

namespace Concolic

namespace X86

/-- One if the low byte has an even number of set bits. -/
def parity (result : Formula) : Build Formula := do
  let start ← Build.flag true
  (List.range 8).foldlM (fun f i => do
    let bit ← Build.extract i i result
    Build.xor f bit) start

/-- Bit four, as a flag. -/
def adjust (f : Formula) : Build Formula := do
  let bit ← Build.constant 0x10 f.width
  let masked ← Build.and f bit
  Build.eq masked bit

/-- The flags of a sum or a difference: the operands, the result, and the taint
of the result. -/
structure Outcome where
  left : Formula
  right : Formula
  result : Formula
  tainted : Bool

def writeAdjust (o : Outcome) : Step Unit := do
  let differ ← Build.xor o.left o.right
  let changed ← Build.xor differ o.result
  let f ← adjust changed
  Step.writeRegister af f "Adjust flag" o.tainted

def writeCarry (kind : Flags.Kind) (o : Outcome) : Step Unit := do
  let differ ← Build.xor o.left o.right
  let f ← Flags.carry kind differ o.left o.right o.result
  Step.writeRegister cf f "Carry flag" o.tainted

def writeOverflow (kind : Flags.Kind) (o : Outcome) : Step Unit := do
  let differ ← Build.xor o.left o.right
  let f ← Flags.overflow kind differ o.left o.right o.result
  Step.writeRegister of f "Overflow flag" o.tainted

/-- Parity, sign and zero, which depend on the result alone. -/
def writeResultFlags (result : Formula) (tainted : Bool) : Step Unit := do
  let even ← parity result
  Step.writeRegister pf even "Parity flag" tainted
  let sign ← Flags.sign result
  Step.writeRegister sf sign "Sign flag" tainted
  let zero ← Flags.isZero result
  Step.writeRegister zf zero "Zero flag" tainted

def writeFlags (kind : Flags.Kind) (o : Outcome) : Step Unit := do
  writeAdjust o
  writeCarry kind o
  writeOverflow kind o
  writeResultFlags o.result o.tainted

/-- The flags of a bitwise operation: carry and overflow are cleared, adjust is
undefined. -/
def writeBitwiseFlags (result : Formula) (tainted : Bool) : Step Unit := do
  Step.undefine af
  let off ← Build.flag false
  Step.writeRegister cf off "Clears carry flag" false
  Step.writeRegister of off "Clears overflow flag" false
  writeResultFlags result tainted

/-- The status flags in the order in which they are written. -/
def statusFlags : List Nat := [af, cf, of, pf, sf, zf]

end X86

end Concolic
