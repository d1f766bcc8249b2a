import Concolic.Step

/-
  The AArch64 opcodes. An opcode's number is its place in the table of
  mnemonics, counted from one. Shifted and extended register operands are the
  decoder's work: an operand here is a register, an immediate or an access.
-/

namespace Concolic

namespace AArch64

/-- The conditions of a branch, by their mnemonics. -/
inductive Condition where
  | eq
  | ne
  | hs
  | lo
  | mi
  | pl
  | vs
  | vc
  | hi
  | ls
  | ge
  | lt
  | gt
  | le
  deriving DecidableEq, Repr

/-- The operations on two sources. -/
inductive Binary where
  | add
  | sub
  | and
  | orr
  | eor
  deriving DecidableEq, Repr

inductive Op where
  | binary (kind : Binary) (setFlags : Bool)
  | cmp
  | mov
  /-- Loads a shifted immediate of sixteen bits. -/
  | movz
  /-- Inverts every bit. -/
  | mvn
  | neg
  | ldr
  | str
  | branch
  | branchIf (condition : Condition)
  | branchLink
  | branchRegister
  | ret
  /-- Branches by whether a register is zero. -/
  | branchZero (nonZero : Bool)
  deriving DecidableEq, Repr

/-- The mnemonics in the order of their numbers, with their operations. -/
def mnemonics : List (String × Option Op) := [
  ("ADD", some (.binary .add false)), ("ADDS", some (.binary .add true)),
  ("AND", some (.binary .and false)), ("ANDS", some (.binary .and true)),
  ("B", some .branch),
  ("B_EQ", some (.branchIf .eq)), ("B_NE", some (.branchIf .ne)),
  ("B_HS", some (.branchIf .hs)), ("B_LO", some (.branchIf .lo)),
  ("B_MI", some (.branchIf .mi)), ("B_PL", some (.branchIf .pl)),
  ("B_VS", some (.branchIf .vs)), ("B_VC", some (.branchIf .vc)),
  ("B_HI", some (.branchIf .hi)), ("B_LS", some (.branchIf .ls)),
  ("B_GE", some (.branchIf .ge)), ("B_LT", some (.branchIf .lt)),
  ("B_GT", some (.branchIf .gt)), ("B_LE", some (.branchIf .le)),
  ("BL", some .branchLink), ("BR", some .branchRegister),
  ("CBNZ", some (.branchZero true)), ("CBZ", some (.branchZero false)),
  ("CMP", some .cmp), ("EOR", some (.binary .eor false)), ("LDR", some .ldr),
  ("MOV", some .mov), ("MOVZ", some .movz), ("MVN", some .mvn), ("NEG", some .neg),
  ("ORR", some (.binary .orr false)), ("RET", some .ret), ("STR", some .str),
  ("SUB", some (.binary .sub false)), ("SUBS", some (.binary .sub true))]

end AArch64

end Concolic
