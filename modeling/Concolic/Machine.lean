import Std.Data.ExtTreeMap
import Concolic.Operand

/-
  The concrete machine: a value for each root register and a byte for each
  address, zero where none was written.
-/

namespace Concolic

structure Machine where
  /-- Values of root registers, by number. -/
  registers : Std.ExtTreeMap Nat Nat := ∅
  memory : Std.ExtTreeMap Address UInt8 := ∅

namespace Machine

/-- The value of a root register. -/
def root (machine : Machine) (id : Nat) : Nat := machine.registers[id]?.getD 0

def register (machine : Machine) (reg : Register) : Nat := reg.read (machine.root reg.parent)

def setRegister (machine : Machine) (reg : Register) (value : Nat) : Machine :=
  { machine with
    registers := machine.registers.insert reg.parent (reg.write (machine.root reg.parent) value) }

/-- A write changes the root of the register and no other. -/
@[simp] theorem root_setRegister (machine : Machine) (reg : Register) (value id : Nat) :
    (machine.setRegister reg value).root id =
      if reg.parent = id then reg.write (machine.root reg.parent) value else machine.root id := by
  by_cases h : reg.parent = id <;>
    simp [setRegister, root, Std.ExtTreeMap.getElem?_insert, h]

def byte (machine : Machine) (address : Address) : UInt8 := machine.memory[address]?.getD 0

def setByte (machine : Machine) (address : Address) (value : UInt8) : Machine :=
  { machine with memory := machine.memory.insert address value }

@[simp] theorem byte_setByte (machine : Machine) (address other : Address) (value : UInt8) :
    (machine.setByte address value).byte other =
      if address = other then value else machine.byte other := by
  by_cases h : address = other <;>
    simp [setByte, byte, Std.ExtTreeMap.getElem?_insert, h]

/-- The most bytes read or written at once. -/
def maxBytes : Nat := 16

/-- The number whose little-endian bytes stand at the addresses. -/
def littleEndian (machine : Machine) : List Address → Nat
  | [] => 0
  | address :: rest => (machine.byte address).toNat + 256 * machine.littleEndian rest

/-- The little-endian number at an address, of at most sixteen bytes. -/
def value (machine : Machine) (address : Address) (bytes : Nat) : Nat :=
  machine.littleEndian (Access.addressesFrom address (min bytes maxBytes))

/-- Writes bytes at consecutive addresses. -/
def setBytes (machine : Machine) (address : Address) : List UInt8 → Machine
  | [] => machine
  | value :: rest => (machine.setByte address value).setBytes (address + 1) rest

/-- The low `count` bytes of a number, the lowest first. -/
def bytesOf (value count : Nat) : List UInt8 :=
  (List.range count).map fun i => (value >>> (8 * i)).toUInt8

/-- Writes the low bytes of a number, sixteen at most. -/
def setValue (machine : Machine) (address : Address) (bytes value : Nat) : Machine :=
  machine.setBytes address (bytesOf value (min bytes maxBytes))

def accessValue (machine : Machine) (access : Access) : Nat :=
  machine.value access.address access.bytes

end Machine

end Concolic
