import Concolic.Error
import Concolic.Text.Blank
import Concolic.Word

/-
  Registers.

  Each instruction set has a table of registers, and a register's number is its
  place in its table counted from the table's first number. A register is part
  of a root, the widest register that contains it, and a write to a part either
  keeps the rest of the root or clears it. The two x86 architectures share one
  table: a row gives the root on the 64-bit one and the root on the 32-bit one,
  where some registers do not exist and every write keeps the rest.
-/

namespace Concolic

/-- What a write to a part of a register does to the rest of its root. -/
inductive Merge where
  /-- The rest keeps its value. -/
  | preserve
  /-- The rest becomes zero. -/
  | zeroExtend
  deriving DecidableEq, Repr

/-- A row of a register table. -/
structure RegisterRow where
  name : String
  bits : Nat
  /-- Place of the lowest bit in the root. -/
  low : Nat := 0
  /-- Number of the root on a 64-bit architecture. -/
  root : Nat
  /-- Number of the root on 32-bit x86, if the register exists there. -/
  root32 : Option Nat := none
  /-- Effect of a write on a 64-bit architecture. -/
  merge : Merge := .preserve

/-- A register of one architecture. -/
structure Register where
  id : Nat
  name : String
  /-- Number of the root; a root is its own. -/
  parent : Nat
  bits : Nat
  low : Nat
  parentBits : Nat
  merge : Merge
  deriving DecidableEq, Repr

namespace Register

/-- Place of the highest bit in the root. -/
def high (reg : Register) : Nat := reg.low + reg.bits - 1

def isRoot (reg : Register) : Bool := reg.id == reg.parent

/-- The register as it is shown to a reader. -/
def description (reg : Register) : String := "Register(" ++ reg.name ++ ")"

/-- The register's value, given its root's. -/
def read (reg : Register) (parent : Nat) : Nat := Word.truncate reg.bits (parent >>> reg.low)

/-- The root's value after `value` is written to the register. -/
def write (reg : Register) (parent value : Nat) : Nat :=
  let value := Word.truncate reg.bits value
  if reg.isRoot then value
  else
    match reg.merge with
    | .zeroExtend => value
    | .preserve =>
      let field := Word.ones reg.bits <<< reg.low
      (parent ^^^ (parent &&& field)) ||| (value <<< reg.low)

end Register

namespace X86

/-- Number of the first x86 register. -/
def firstRegister : Nat := 1

/-- A general register with two byte parts, from number `root` on. -/
def byteFamily (root : Nat) (r e x h l : String) : List RegisterRow :=
  [{ name := r, bits := 64, root },
    { name := e, bits := 32, root, root32 := some (root + 1), merge := .zeroExtend },
    { name := x, bits := 16, root, root32 := some (root + 1) },
    { name := h, bits := 8, low := 8, root, root32 := some (root + 1) },
    { name := l, bits := 8, root, root32 := some (root + 1) }]

/-- A pointer or index register; its byte part is new on the 64-bit
architecture. -/
def indexFamily (root : Nat) (r e x l : String) : List RegisterRow :=
  [{ name := r, bits := 64, root },
    { name := e, bits := 32, root, root32 := some (root + 1), merge := .zeroExtend },
    { name := x, bits := 16, root, root32 := some (root + 1) },
    { name := l, bits := 8, root }]

/-- A register that only the 64-bit architecture has. -/
def newFamily (root : Nat) (r : String) : List RegisterRow :=
  [{ name := r, bits := 64, root },
    { name := r ++ "d", bits := 32, root, merge := .zeroExtend },
    { name := r ++ "w", bits := 16, root },
    { name := r ++ "b", bits := 8, root }]

def flagRow (id : Nat) (name : String) : RegisterRow :=
  { name, bits := 1, root := id, root32 := some id }

/-- The registers of x86, in the order of their numbers. -/
def registerTable : List RegisterRow := List.flatten [
  byteFamily 1 "rax" "eax" "ax" "ah" "al",
  byteFamily 6 "rbx" "ebx" "bx" "bh" "bl",
  byteFamily 11 "rcx" "ecx" "cx" "ch" "cl",
  byteFamily 16 "rdx" "edx" "dx" "dh" "dl",
  indexFamily 21 "rdi" "edi" "di" "dil",
  indexFamily 25 "rsi" "esi" "si" "sil",
  indexFamily 29 "rbp" "ebp" "bp" "bpl",
  indexFamily 33 "rsp" "esp" "sp" "spl",
  newFamily 37 "r8",
  newFamily 41 "r9",
  newFamily 45 "r10",
  newFamily 49 "r11",
  newFamily 53 "r12",
  newFamily 57 "r13",
  newFamily 61 "r14",
  newFamily 65 "r15",
  [{ name := "rip", bits := 64, root := 69 },
    { name := "eip", bits := 32, root := 69, root32 := some 70, merge := .zeroExtend },
    { name := "ip", bits := 16, root := 69, root32 := some 70 }],
  [flagRow 72 "af", flagRow 73 "cf", flagRow 74 "df", flagRow 75 "if", flagRow 76 "of",
    flagRow 77 "pf", flagRow 78 "sf", flagRow 79 "tf", flagRow 80 "zf"]]

/-! The registers that instructions name implicitly. -/

def rax : Nat := 1
def eax : Nat := 2
def ax : Nat := 3
def ah : Nat := 4
def al : Nat := 5
def rdx : Nat := 16
def edx : Nat := 17
def dx : Nat := 18
def rsp : Nat := 33
def esp : Nat := 34
def rip : Nat := 69
def eip : Nat := 70

/-- Adjust flag: carry out of the low four bits. -/
def af : Nat := 72
/-- Carry flag. -/
def cf : Nat := 73
/-- Direction flag. -/
def df : Nat := 74
/-- Interrupt flag. -/
def interruptFlag : Nat := 75
/-- Overflow flag. -/
def of : Nat := 76
/-- Parity flag. -/
def pf : Nat := 77
/-- Sign flag. -/
def sf : Nat := 78
/-- Zero flag. -/
def zf : Nat := 80

end X86

namespace AArch64

/-- Number of the first AArch64 register. -/
def firstRegister : Nat := 0x100

def xRow (index : Nat) : RegisterRow :=
  { name := "x" ++ toString index, bits := 64, root := 0x100 + index }

def wRow (index : Nat) : RegisterRow :=
  { name := "w" ++ toString index, bits := 32, root := 0x100 + index, merge := .zeroExtend }

/-- The registers of AArch64, in the order of their numbers: thirty-one general
registers, their low halves, the stack pointer, the zero register, the program
counter and the four flags. -/
def registerTable : List RegisterRow :=
  (List.range 31).map xRow ++ (List.range 31).map wRow ++
    [{ name := "sp", bits := 64, root := 318 },
      { name := "wsp", bits := 32, root := 318, merge := .zeroExtend },
      { name := "xzr", bits := 64, root := 320 },
      { name := "wzr", bits := 32, root := 320, merge := .zeroExtend },
      { name := "pc", bits := 64, root := 322 },
      { name := "n", bits := 1, root := 323 },
      { name := "z", bits := 1, root := 324 },
      { name := "c", bits := 1, root := 325 },
      { name := "v", bits := 1, root := 326 }]

/-- The link register. -/
def x30 : Nat := 286
def sp : Nat := 318
def xzr : Nat := 320
def wzr : Nat := 321
def pc : Nat := 322
/-- Negative flag. -/
def n : Nat := 323
/-- Zero flag. -/
def z : Nat := 324
/-- Carry flag. -/
def c : Nat := 325
/-- Overflow flag. -/
def v : Nat := 326

end AArch64

namespace Architecture

def registerTable : Architecture → List RegisterRow
  | x86 | x86_64 => X86.registerTable
  | aarch64 => AArch64.registerTable

def firstRegister : Architecture → Nat
  | x86 | x86_64 => X86.firstRegister
  | aarch64 => AArch64.firstRegister

/-- The table row of a register number, whether or not the register exists on
the architecture. -/
def row? (arch : Architecture) (id : Nat) : Option RegisterRow :=
  if arch.firstRegister ≤ id then arch.registerTable[id - arch.firstRegister]? else none

/-- The register of a number, if the architecture has it. -/
def register? (arch : Architecture) (id : Nat) : Option Register := do
  let row ← arch.row? id
  let (parent, merge) ←
    match arch with
    | x86 => row.root32.map fun root => (root, Merge.preserve)
    | _ => some (row.root, row.merge)
  let parentRow ← arch.row? parent
  pure { id, name := row.name, parent, bits := row.bits, low := row.low,
         parentBits := parentRow.bits, merge }

def register (arch : Architecture) (id : Nat) : Except Error Register :=
  match arch.register? id with
  | some reg => .ok reg
  | none => .error (.invalidRegister id arch)

/-- The register of a name in any case. -/
def registerNamed (arch : Architecture) (name : String) : Except Error Register :=
  match arch.registerTable.findIdx? fun row => Text.sameName row.name.toList name.toList with
  | some index => arch.register (arch.firstRegister + index)
  | none => .error (.unknownRegister name arch)

/-- Every register of the architecture, in the order of their numbers. -/
def registers (arch : Architecture) : List Register :=
  (List.range arch.registerTable.length).filterMap fun index =>
    arch.register? (arch.firstRegister + index)

/-- Number of the program counter. -/
def programCounterId : Architecture → Nat
  | x86 => X86.eip
  | x86_64 => X86.rip
  | aarch64 => AArch64.pc

/-- Number of the stack pointer. -/
def stackPointerId : Architecture → Nat
  | x86 => X86.esp
  | x86_64 => X86.rsp
  | aarch64 => AArch64.sp

theorem programCounter_isSome (arch : Architecture) :
    (arch.register? arch.programCounterId).isSome := by
  cases arch <;> rfl

theorem stackPointer_isSome (arch : Architecture) :
    (arch.register? arch.stackPointerId).isSome := by
  cases arch <;> rfl

def programCounter (arch : Architecture) : Register :=
  (arch.register? arch.programCounterId).get arch.programCounter_isSome

def stackPointer (arch : Architecture) : Register :=
  (arch.register? arch.stackPointerId).get arch.stackPointer_isSome

/-- Whether a register reads as zero and discards writes. -/
def isZeroRegister (arch : Architecture) (reg : Register) : Bool :=
  arch == aarch64 && (reg.id == AArch64.xzr || reg.id == AArch64.wzr)

/-- Whether a register is the program counter or a part of it. -/
def isProgramCounter (arch : Architecture) (reg : Register) : Bool :=
  reg.parent == arch.programCounter.parent

end Architecture

end Concolic
