import Concolic.X86.Arithmetic

/-
  x86 multiplication and division, which work on a pair of registers for the low
  and the high half of a double-width number.
-/

namespace Concolic

open Step

namespace X86

/-- The registers of the low and the high half for operands of a width. -/
structure Halves where
  low : Nat
  high : Nat

def halves? : Nat → Option Halves
  | 8 => some ⟨al, ah⟩
  | 16 => some ⟨ax, dx⟩
  | 32 => some ⟨eax, edx⟩
  | 64 => some ⟨rax, rdx⟩
  | _ => none

def halves (bits : Nat) : Step Halves := do
  match halves? bits with
  | some pair => return pair
  | none => refuse .accumulatorWidth

/-- Writes a double-width product; the halves of sixteen bits are one
register. -/
def writeProduct (bits : Nat) (product : Formula) (comment : String) (tainted : Bool) :
    Step Unit := do
  let pair ← halves bits
  if bits = 8 then writeRegister ax product comment tainted
  else
    let top ← Build.minus bits 1
    let low ← Build.extract top 0 product
    let top ← Build.minus (bits * 2) 1
    let high ← Build.extract top bits product
    writeRegister pair.low low comment tainted
    writeRegister pair.high high comment tainted

/-- The double-width product of two words. -/
def product (signed : Bool) (bits : Nat) (a b : Formula) : Build Formula := do
  if signed then
    let a ← Build.signExtend (bits * 2) a
    let b ← Build.signExtend (bits * 2) b
    Build.mul a b
  else
    let a ← Build.zeroExtend (bits * 2) a
    let b ← Build.zeroExtend (bits * 2) b
    Build.mul a b

/-- A double-width product with its width and taint. -/
structure Product where
  bits : Nat
  full : Formula
  tainted : Bool

/-- Whether a product needs its high half. -/
def Product.overflow (signed : Bool) (p : Product) : Build Formula := do
  if signed then
    let top ← Build.minus p.bits 1
    let low ← Build.extract top 0 p.full
    let extended ← Build.signExtend (p.bits * 2) low
    Build.ne extended p.full
  else
    let top ← Build.minus (p.bits * 2) 1
    let high ← Build.extract top p.bits p.full
    let zero ← Build.zero p.bits
    Build.ne high zero

/-- The flags of a multiplication: carry and overflow say that the product needs
its high half, the others are undefined. -/
def writeProductFlags (signed : Bool) (p : Product) : Step Unit := do
  let overflow ← p.overflow signed
  undefine af
  writeRegister cf overflow "Carry flag" p.tainted
  writeRegister of overflow "Overflow flag" p.tainted
  [pf, sf, zf].forM undefine

/-- Multiplies the accumulator by the only operand. -/
def multiplyAccumulator (signed : Bool) (comment : String) : Step Product := do
  let src ← operand 0
  let bits := src.bits
  let pair ← halves bits
  let a ← readRegisterId pair.low
  let b ← read src
  let full ← product signed bits a b
  let accumulatorTainted ← isRegisterTainted pair.low
  let srcTainted ← isTainted src
  let tainted := accumulatorTainted || srcTainted
  writeProduct bits full comment tainted
  return { bits, full, tainted }

def mul : Step Unit := do
  let p ← multiplyAccumulator false "MUL operation"
  writeProductFlags false p

/-- The factors of a multiplication with a destination of its own, and their
taint: the destination and a source, or two sources. -/
def factors (count bits : Nat) : Step (Formula × Formula × Bool) := do
  if count = 2 then
    let p ← readPair
    return (p.left, p.right, ← p.isTainted)
  else
    let src ← operand 1
    let other ← operand 2
    let a ← readSized src bits
    let b ← readSized other bits
    return (a, b, ← isTainted src)

/-- Multiplies two operands into the first. -/
def multiplyInto (count : Nat) : Step Product := do
  let dst ← operand 0
  let bits := dst.bits
  let (a, b, factorTainted) ← factors count bits
  let full ← product true bits a b
  let top ← Build.minus bits 1
  let low ← Build.extract top 0 full
  let tainted ← assign dst low "IMUL operation" (setTaint dst factorTainted)
  return { bits, full, tainted }

def imul : Step Unit := do
  let count ← operandCount
  let p ←
    if count = 1 then multiplyAccumulator true "IMUL operation" else multiplyInto count
  writeProductFlags true p

/-- Quotient and remainder of a double-width dividend. -/
def quotient (signed : Bool) (bits : Nat) (dividend divisor : Formula) :
    Build (Formula × Formula) := do
  if signed then
    let divisor ← Build.signExtend (bits * 2) divisor
    return (← Build.sdiv dividend divisor, ← Build.srem dividend divisor)
  else
    let divisor ← Build.zeroExtend (bits * 2) divisor
    return (← Build.udiv dividend divisor, ← Build.urem dividend divisor)

/-- The bound that a quotient of words is held against. -/
def quotientBound (signed : Bool) (bits : Nat) : Step Nat := do
  if signed then
    let top ← Build.minus bits 1
    shiftLeft 1 top
  else return Word.ones bits

/-- Whether a double-width quotient fits into a word. -/
def fits (signed : Bool) (bits bound quotient : Nat) : Bool :=
  if signed then
    let value := Word.signed (bits * 2) quotient
    decide (-(bound : Int) ≤ value ∧ value < bound)
  else decide (quotient ≤ bound)

/-- The dividend: both halves. -/
def dividend (bits : Nat) (pair : Halves) : Step Formula := do
  if bits = 8 then readRegisterId ax
  else
    let high ← readRegisterId pair.high
    let low ← readRegisterId pair.low
    Build.concat high low

/-- Writes the low halves of a quotient and a remainder; every status flag is
undefined. -/
def writeQuotient (signed : Bool) (src : Operand) (pair : Halves)
    (wideQuotient wideRemainder : Formula) : Step Unit := do
  let halvesTainted ← anyRegisterTainted [pair.low, pair.high]
  let srcTainted ← isTainted src
  let tainted := halvesTainted || srcTainted
  let comment := if signed then "IDIV operation" else "DIV operation"
  let top ← Build.minus src.bits 1
  let low ← Build.extract top 0 wideQuotient
  let rest ← Build.extract top 0 wideRemainder
  writeRegister pair.low low comment tainted
  writeRegister pair.high rest comment tainted
  statusFlags.forM undefine

/-- Divides the halves by `divisor`; a quotient that does not fit is a fault. -/
def divideBy (signed : Bool) (src : Operand) (pair : Halves) (divisor : Formula) :
    Step (Option Fault) := do
  let whole ← dividend src.bits pair
  let (wideQuotient, wideRemainder) ← quotient signed src.bits whole divisor
  let bound ← quotientBound signed src.bits
  if !fits signed src.bits bound (← evaluate wideQuotient) then return some .divideError
  else complete (writeQuotient signed src pair wideQuotient wideRemainder)

/-- Divides the halves by the operand. A divisor of zero and a quotient that
does not fit are faults, raised before anything is written. -/
def divide (signed : Bool) : Step (Option Fault) := do
  let src ← operand 0
  let pair ← halves src.bits
  let divisor ← read src
  if (← evaluate divisor) = 0 then return some .divideError
  else divideBy signed src pair divisor

end X86

end Concolic
