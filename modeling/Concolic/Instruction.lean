import Concolic.Operand

/-
  Instructions: what a decoder provides, and what processing leaves with them.
-/

namespace Concolic

/-- An exception that an instruction raises instead of completing. -/
inductive Fault where
  | divideError
  | breakpoint
  /-- Also raised by opcodes without semantics. -/
  | invalidOpcode
  | generalProtection
  deriving DecidableEq, Repr

/-- A decoded instruction and the results of processing it. -/
structure Instruction where
  address : Address
  length : Nat
  opcode : Nat
  operands : List Operand := []
  disassembly : String := ""
  /-- The expressions created, in the order of creation. -/
  expressions : Array Nat := #[]
  tainted : Bool := false
  branch : Bool := false
  /-- Whether control went to the branch target. -/
  taken : Bool := false
  /-- The address executed next. -/
  next : Address
  fault : Option Fault := none

namespace Instruction

/-- The most operands that an instruction has. -/
def maxOperands : Nat := 4

def decoded (address : Address) (length opcode : Nat) (operands : List Operand)
    (disassembly : String) : Instruction :=
  { address, length, opcode, operands := operands.take maxOperands, disassembly,
    next := address + length.toUInt64 }

/-- The address of the instruction that follows in memory. -/
def fallThrough (inst : Instruction) : Address := inst.address + inst.length.toUInt64

/-- The instruction without the results of earlier processing. -/
def reset (inst : Instruction) : Instruction :=
  { inst with
    expressions := #[], tainted := false, branch := false, taken := false,
    next := inst.fallThrough, fault := none }

/-- The concrete addresses of the memory operands. -/
def addresses (inst : Instruction) : List Address :=
  inst.operands.filterMap fun operand => operand.memory?.map Access.address

end Instruction

end Concolic
