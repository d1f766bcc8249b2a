import Concolic.Register

/-
  Operands of instructions: immediates, memory accesses and registers.
-/

namespace Concolic

/-- An immediate: a value of `bits` bits. -/
structure Immediate where
  value : UInt64
  bits : Nat
  deriving DecidableEq, Repr

namespace Immediate

/-- The immediate of the low `bits` bits of a value. -/
def ofValue (value : UInt64) (bits : Nat) : Immediate :=
  { value := (Word.truncate bits value.toNat).toUInt64, bits }

/-- The value sign-extended or cut to `width` bits. -/
def sized (imm : Immediate) (width : Nat) : Nat := Word.signExtend imm.bits width imm.value.toNat

end Immediate

/-- A memory access. Its address is the base register plus the scaled index
register plus the displacement; `address` holds the concrete value. -/
structure Access where
  address : Address
  bits : Nat
  base : Option Register := none
  index : Option Register := none
  scale : Nat := 1
  displacement : Int64
  deriving DecidableEq, Repr

namespace Access

/-- The access to a fixed address. -/
def fixed (address : Address) (bits : Nat) : Access :=
  { address, bits, displacement := address.toInt64 }

/-- Whether the address is computed from a register. -/
def isComputed (access : Access) : Bool := access.base.isSome || access.index.isSome

/-- The access with its displacement dropped if its address was fixed so far. -/
def relative (access : Access) : Access :=
  if access.isComputed then access else { access with displacement := 0 }

def withBase (access : Access) (base : Register) : Access :=
  { access.relative with base := some base }

def withIndex (access : Access) (index : Register) (scale : Nat) : Access :=
  { access.relative with index := some index, scale }

def withDisplacement (access : Access) (displacement : Int64) : Access :=
  { access with displacement }

/-- Number of whole bytes. -/
def bytes (access : Access) : Nat := access.bits / 8

/-- The addresses of the bytes from `address` on. -/
def addressesFrom (address : Address) (count : Nat) : List Address :=
  (List.range count).map fun i => address + i.toUInt64

/-- The addresses of the bytes, the lowest first. -/
def byteAddresses (access : Access) : List Address := addressesFrom access.address access.bytes

end Access

inductive Operand where
  | immediate (imm : Immediate)
  | memory (access : Access)
  | register (reg : Register)
  deriving DecidableEq, Repr

namespace Operand

def bits : Operand → Nat
  | immediate imm => imm.bits
  | memory access => access.bits
  | register reg => reg.bits

def register? : Operand → Option Register
  | register reg => some reg
  | _ => none

def memory? : Operand → Option Access
  | memory access => some access
  | _ => none

def immediate? : Operand → Option Immediate
  | immediate imm => some imm
  | _ => none

end Operand

end Concolic
