import Std.Data.ExtTreeSet
import Concolic.Operand

/-
  Taint of root registers and of bytes of memory.

  A register has the taint of its root. An access is tainted when one of its
  bytes is, and, where taint goes through pointers, also when its base or index
  register is. Immediates are never tainted. The operations that set the taint
  of a destination return the taint it has afterwards.
-/

namespace Concolic

structure Taint where
  /-- Numbers of the tainted root registers. -/
  registers : Std.ExtTreeSet Nat := ∅
  /-- Addresses of the tainted bytes. -/
  memory : Std.ExtTreeSet Address := ∅

namespace Taint

/-- Nothing is tainted. -/
def clean : Taint := {}

def isRegister (t : Taint) (reg : Register) : Bool := t.registers.contains reg.parent

def setRegister (t : Taint) (reg : Register) (tainted : Bool) : Taint :=
  { t with
    registers := if tainted then t.registers.insert reg.parent else t.registers.erase reg.parent }

/-- Registers with one root have one taint, and setting it leaves the others. -/
@[simp] theorem isRegister_setRegister (t : Taint) (reg other : Register) (tainted : Bool) :
    (t.setRegister reg tainted).isRegister other =
      if reg.parent = other.parent then tainted else t.isRegister other := by
  by_cases h : reg.parent = other.parent <;> cases tainted <;>
    simp [setRegister, isRegister, h]

def isByte (t : Taint) (address : Address) : Bool := t.memory.contains address

def setByte (t : Taint) (address : Address) (tainted : Bool) : Taint :=
  { t with memory := if tainted then t.memory.insert address else t.memory.erase address }

@[simp] theorem isByte_setByte (t : Taint) (address other : Address) (tainted : Bool) :
    (t.setByte address tainted).isByte other =
      if address = other then tainted else t.isByte other := by
  by_cases h : address = other <;> cases tainted <;> simp [setByte, isByte, h]

/-- Whether a register is there and tainted. -/
def isOptional (t : Taint) (reg : Option Register) : Bool :=
  match reg with
  | some reg => t.isRegister reg
  | none => false

/-- Whether an access is tainted; `pointers` says whether its registers count. -/
def isAccess (t : Taint) (pointers : Bool) (access : Access) : Bool :=
  access.byteAddresses.any t.isByte ||
    (pointers && (t.isOptional access.base || t.isOptional access.index))

def setAccess (t : Taint) (access : Access) (tainted : Bool) : Taint :=
  access.byteAddresses.foldl (fun t address => t.setByte address tainted) t

def isOperand (t : Taint) (pointers : Bool) : Operand → Bool
  | .immediate _ => false
  | .memory access => t.isAccess pointers access
  | .register reg => t.isRegister reg

/-- Sets the taint of a destination. -/
def setOperand (t : Taint) (tainted : Bool) : Operand → Bool × Taint
  | .immediate _ => (false, t)
  | .memory access => (tainted, t.setAccess access tainted)
  | .register reg => (tainted, t.setRegister reg tainted)

/-- The destination takes the taint of a source. -/
def assign (t : Taint) (pointers : Bool) (dst src : Operand) : Bool × Taint :=
  t.setOperand (t.isOperand pointers src) dst

/-- The destination is tainted if one of two sources is. -/
def union (t : Taint) (pointers : Bool) (dst src₁ src₂ : Operand) : Bool × Taint :=
  t.setOperand (t.isOperand pointers src₁ || t.isOperand pointers src₂) dst

end Taint

end Concolic
