import Concolic.X86.Condition

/-
  The x86 opcodes, shared by the 32-bit and the 64-bit architecture. An opcode's
  number is its place in the table of mnemonics, counted from one; some have no
  semantics.
-/

namespace Concolic

namespace X86

/-- The bitwise operations on two operands. -/
inductive Bitwise where
  | and
  | or
  | xor
  deriving DecidableEq, Repr

/-- The shifts. -/
inductive Shift where
  | left
  | logicalRight
  | arithmeticRight
  deriving DecidableEq, Repr

/-- A flag that can be set and cleared by itself. -/
inductive ControlFlag where
  | carry
  | direction
  | interrupt
  deriving DecidableEq, Repr

/-- Operations with semantics. -/
inductive Op where
  | add
  | adc
  | sub
  | sbb
  | cmp
  | bitwise (kind : Bitwise)
  | test
  | inc
  | dec
  | neg
  | not
  | mov
  /-- A move from a narrower operand. -/
  | extend (signed : Bool)
  | lea
  | xchg
  | bswap
  | push
  | pop
  | call
  | ret
  | jump
  | jumpIf (condition : Condition)
  | setIf (condition : Condition)
  | moveIf (condition : Condition)
  | shift (kind : Shift)
  | rotate (left : Bool)
  | mul
  | imul
  | divide (signed : Bool)
  /-- Extends a part of the accumulator by its sign, in place. -/
  | widen (source target : Nat)
  /-- Fills a register with the sign of a part of the accumulator. -/
  | spread (source target : Nat)
  | setFlag (flag : ControlFlag) (value : Bool)
  | complementCarry
  | nop
  | breakpoint
  | halt
  deriving DecidableEq, Repr

/-- A family of mnemonics, one for each condition. -/
def conditional (stem : String) (op : Condition → Op) : List (String × Option Op) :=
  Condition.suffixes.map fun (suffix, condition) => (stem ++ suffix, some (op condition))

/-- The mnemonics in the order of their numbers, with their operations. -/
def mnemonics : List (String × Option Op) :=
  [("ADC", some .adc), ("ADD", some .add), ("AND", some (.bitwise .and)),
    ("BSWAP", some .bswap), ("CALL", some .call), ("CBW", some (.widen al ax)),
    ("CDQ", some (.spread eax edx)), ("CDQE", some (.widen eax rax)),
    ("CLC", some (.setFlag .carry false)), ("CLD", some (.setFlag .direction false)),
    ("CLI", some (.setFlag .interrupt false)), ("CMC", some .complementCarry)] ++
  conditional "CMOV" .moveIf ++
  [("CMP", some .cmp), ("CPUID", none), ("CQO", some (.spread rax rdx)),
    ("CWD", some (.spread ax dx)), ("CWDE", some (.widen ax eax)), ("DEC", some .dec),
    ("DIV", some (.divide false)), ("HLT", some .halt), ("IDIV", some (.divide true)),
    ("IMUL", some .imul), ("INC", some .inc), ("INT3", some .breakpoint)] ++
  -- the unconditional jump stands in alphabetical order among the others
  (conditional "J" .jumpIf).insertIdx 9 ("JMP", some .jump) ++
  [("LEA", some .lea), ("MOV", some .mov), ("MOVSX", some (.extend true)),
    ("MOVSXD", some (.extend true)), ("MOVZX", some (.extend false)), ("MUL", some .mul),
    ("NEG", some .neg), ("NOP", some .nop), ("NOT", some .not), ("OR", some (.bitwise .or)),
    ("POP", some .pop), ("PUSH", some .push), ("RDTSC", none), ("RET", some .ret),
    ("ROL", some (.rotate true)), ("ROR", some (.rotate false)),
    ("SAR", some (.shift .arithmeticRight)), ("SBB", some .sbb)] ++
  conditional "SET" .setIf ++
  [("SHL", some (.shift .left)), ("SHR", some (.shift .logicalRight)),
    ("STC", some (.setFlag .carry true)), ("STD", some (.setFlag .direction true)),
    ("STI", some (.setFlag .interrupt true)), ("SUB", some .sub), ("SYSCALL", none),
    ("TEST", some .test), ("XCHG", some .xchg), ("XOR", some (.bitwise .xor))]

end X86

end Concolic
