import Concolic.Expression
import Concolic.Machine
import Concolic.Path

/-
  The symbolic state: the expressions recorded and what is bound to them.

  Every value that an instruction computes is recorded as an expression, in a
  table that only grows: the number of an expression is its place in the table.
  A root register is bound to the expression that last wrote it, and a byte of
  memory to an expression and the place of the byte in it; what is bound to
  nothing has its concrete value. Beside the bytes, whole writes may be kept
  under their address and size.

  Correspondence (interface ↔ here), where more than the spelling differs:
    `SymbolicState`, `SymbolicExpression` ↔ `Symbolic`, `Expression`
    the aligned cache, `remove_aligned` ↔ `aligned`, `dropAligned`
    `read_register`, `read_memory` ↔ `registerBinding?`, `byteBinding?`
    `register_ast`, `memory_ast` ↔ `registerFormula`, `memoryFormula`
    `concretize_memory`, `concretize_memory_access` ↔ `concretizeByte`, `concretizeAccess`
    `unbind_expression` ↔ `unbind`
  The number of an expression has no bound here. An `ExprId` has 32 bits, so the two
  agree as long as fewer than 2^32 expressions are recorded.
-/

namespace Concolic

/-- The binding of a byte of memory: a byte of an expression. -/
structure Cell where
  expression : Nat
  /-- Place of the byte in the expression, counted modulo 256. -/
  byte : Nat
  deriving DecidableEq, Repr

/-- A whole write that is kept. -/
structure AlignedWrite where
  address : Address
  bytes : Nat
  expression : Nat
  deriving DecidableEq, Repr

structure Symbolic where
  expressions : Array Expression := #[]
  /-- Expressions of root registers, by number. -/
  registers : Std.ExtTreeMap Nat Nat := ∅
  memory : Std.ExtTreeMap Address Cell := ∅
  aligned : List AlignedWrite := []
  /-- The memory as one array, once it is needed. -/
  array : Option Formula := none
  constraints : Array PathConstraint := #[]

namespace Symbolic

def expression (s : Symbolic) (id : Nat) : Except Error Expression :=
  match s.expressions[id]? with
  | some e => .ok e
  | none => .error (.unknownExpression id)

/-- Changes an expression. -/
def update (s : Symbolic) (id : Nat) (change : Expression → Expression) : Except Error Symbolic :=
  match s.expressions[id]? with
  | some e => .ok { s with expressions := s.expressions.setIfInBounds id (change e) }
  | none => .error (.unknownExpression id)

def setTainted (s : Symbolic) (id : Nat) (tainted : Bool) : Except Error Symbolic :=
  s.update id fun e => { e with tainted }

def setDisassembly (s : Symbolic) (id : Nat) (disassembly : String) : Except Error Symbolic :=
  s.update id fun e => { e with disassembly }

/-! Bindings. -/

/-- The sizes of whole writes that a later write can displace. -/
def alignedSizes : List Nat := [1, 2, 4, 8, 16]

/-- Whether a whole write shares a byte with the `bytes` bytes at `address`:
it starts at most its size less one below the address, and before their end. -/
def AlignedWrite.overlaps (w : AlignedWrite) (address : Address) (bytes : Nat) : Bool :=
  (w.address - (address - (w.bytes - 1).toUInt64)).toNat < w.bytes + bytes - 1

/-- Forgets the whole writes that share a byte with a place. -/
def dropAligned (s : Symbolic) (address : Address) (bytes : Nat) : Symbolic :=
  { s with aligned := s.aligned.filter fun w =>
      !(alignedSizes.contains w.bytes && AlignedWrite.overlaps w address bytes) }

/-- The whole write of a place. -/
def aligned? (s : Symbolic) (address : Address) (bytes : Nat) : Option Nat :=
  (s.aligned.find? fun w => w.address == address && w.bytes == bytes).map AlignedWrite.expression

/-- Forgets the whole write of exactly one place. -/
def eraseAligned (s : Symbolic) (address : Address) (bytes : Nat) : Symbolic :=
  { s with aligned := s.aligned.filter fun w => !(w.address == address && w.bytes == bytes) }

def keepAligned (s : Symbolic) (address : Address) (bytes id : Nat) : Symbolic :=
  let s := s.eraseAligned address bytes
  { s with aligned := { address, bytes, expression := id } :: s.aligned }

/-- Binds consecutive bytes to the bytes of an expression from `byte` on. -/
def bindBytes (memory : Std.ExtTreeMap Address Cell) (id : Nat) :
    (byte : Nat) → List Address → Std.ExtTreeMap Address Cell
  | _, [] => memory
  | byte, address :: rest =>
    bindBytes (memory.insert address { expression := id, byte := byte % 256 }) id (byte + 1) rest

/-- Binds the bytes of an access to an expression, and keeps it as a whole
write if asked to. -/
def bindMemory (s : Symbolic) (keep : Bool) (access : Access) (id : Nat) : Symbolic :=
  let s := s.dropAligned access.address access.bytes
  let s := { s with memory := bindBytes s.memory id 0 access.byteAddresses }
  if keep then s.keepAligned access.address access.bytes id else s

/-- Binds an expression to its origin. -/
def bindOrigin (s : Symbolic) (keep : Bool) (origin : Origin) (id : Nat) : Symbolic :=
  match origin with
  | .register reg => { s with registers := s.registers.insert reg.id id }
  | .memory access => s.bindMemory keep access id
  | .volatile => s

/-- Whether a formula can be the value of its origin. -/
def checkOrigin (f : Formula) : Origin → Except Error Unit
  | .register reg =>
    if !reg.isRoot || f.width != reg.bits then
      .error (.invalidWidth (.registerExpression f.width reg.name))
    else .ok ()
  | .memory access =>
    if f.width != access.bits || access.bits % 8 != 0 then
      .error (.invalidWidth (.memoryExpression f.width access.bits))
    else .ok ()
  | .volatile => .ok ()

/-- Records an expression and binds it to its origin. With `keep`, a memory
write is also kept as a whole. -/
def create (s : Symbolic) (keep : Bool) (f : Formula) (origin : Origin) (comment : String)
    (address : Option Address) : Except Error (Nat × Symbolic) := do
  checkOrigin f origin
  let id := s.expressions.size
  let s := { s with
    expressions := s.expressions.push { id, formula := f, origin, comment, address } }
  pure (id, s.bindOrigin keep origin id)

/-- The expression bound to a register's root. -/
def registerBinding? (s : Symbolic) (reg : Register) : Option Expression := do
  let id ← s.registers[reg.parent]?
  s.expressions[id]?

/-- The expression bound to a byte. -/
def byteBinding? (s : Symbolic) (address : Address) : Option Expression := do
  let cell ← s.memory[address]?
  s.expressions[cell.expression]?

/-- The bound root registers and their expressions, by number. -/
def boundRegisters (s : Symbolic) : List (Nat × Nat) := s.registers.toList

/-- The bound bytes and their expressions, by address. -/
def boundMemory (s : Symbolic) : List (Address × Nat) :=
  s.memory.toList.map fun (address, cell) => (address, cell.expression)

/-- Unbinds a register's root. -/
def concretizeRegister (s : Symbolic) (reg : Register) : Symbolic :=
  { s with registers := s.registers.erase reg.parent }

/-- Unbinds a byte. -/
def concretizeByte (s : Symbolic) (address : Address) : Symbolic :=
  { s with memory := s.memory.erase address }.dropAligned address 1

/-- Unbinds the bytes of an access. -/
def concretizeAccess (s : Symbolic) (access : Access) : Symbolic :=
  { s with memory := access.byteAddresses.foldl (·.erase ·) s.memory }.dropAligned
    access.address access.bytes

def concretizeRegisters (s : Symbolic) : Symbolic := { s with registers := ∅ }

/-- Unbinds all of memory, and forgets the memory array. -/
def concretizeMemory (s : Symbolic) : Symbolic :=
  { s with memory := ∅, aligned := [], array := none }

def concretizeAll (s : Symbolic) : Symbolic := s.concretizeRegisters.concretizeMemory

/-- Removes the bindings of a byte to an expression. -/
def unbindByte (memory : Std.ExtTreeMap Address Cell) (id : Nat) (address : Address) :
    Std.ExtTreeMap Address Cell :=
  if memory[address]?.map Cell.expression = some id then memory.erase address else memory

/-- Removes every binding to an expression; bindings made later to the same
places stay. -/
def unbind (s : Symbolic) (id : Nat) : Except Error Symbolic := do
  let e ← s.expression id
  match e.origin with
  | .register reg =>
    pure (if s.registers[reg.id]? = some id then
      { s with registers := s.registers.erase reg.id } else s)
  | .memory access =>
    let s := { s with
      memory := access.byteAddresses.foldl (fun memory address => unbindByte memory id address)
        s.memory }
    pure (if s.aligned? access.address access.bytes = some id then
      s.eraseAligned access.address access.bytes else s)
  | .volatile => pure s

/-! Formulas of registers and memory. -/

/-- The formula of a register: the part of its root's expression, or its
concrete value. -/
def registerFormula (s : Symbolic) (machine : Machine) (reg : Register) : Build Formula :=
  match s.registerBinding? reg with
  | some e => if reg.isRoot then pure e.formula else Build.extract reg.high reg.low e.formula
  | none => Build.constant (machine.register reg) reg.bits

/-- A value for a register on top of the part of its root below it. -/
def keepBelow (reg : Register) (root value : Formula) : Build Formula := do
  if reg.low ≠ 0 then
    let rest ← Build.extract (reg.low - 1) 0 root
    Build.concat value rest
  else pure value

/-- The part of a root above a register on top of a value for what is below. -/
def keepAbove (reg : Register) (root value : Formula) : Build Formula := do
  if reg.high + 1 < reg.parentBits then
    let rest ← Build.extract (reg.parentBits - 1) (reg.high + 1) root
    Build.concat rest value
  else pure value

/-- The formula of a register's root after a write to the register. -/
def mergeRegister (s : Symbolic) (arch : Architecture) (machine : Machine) (reg : Register)
    (value : Formula) : Build Formula := do
  if value.width != reg.bits then
    throw (.invalidWidth (.registerWrite value.width reg.name))
  else if reg.isRoot then pure value
  else
    match reg.merge with
    | .zeroExtend => Build.zeroExtend reg.parentBits value
    | .preserve =>
      let parent ← MonadExcept.ofExcept (arch.register reg.parent)
      let root ← s.registerFormula machine parent
      let lower ← keepBelow reg root value
      keepAbove reg root lower

/-- The formula of a byte of memory. -/
def byteFormula (s : Symbolic) (machine : Machine) (address : Address) : Build Formula := do
  match s.memory[address]? with
  | some cell =>
    let e ← MonadExcept.ofExcept (s.expression cell.expression)
    Build.extract (cell.byte * 8 + 7) (cell.byte * 8) e.formula
  | none => Build.constant (machine.byte address).toNat 8

/-- The formula of memory, byte by byte, or from a whole write if `keep` says
that these are kept. -/
def memoryFormula (s : Symbolic) (keep : Bool) (machine : Machine) (access : Access) :
    Build Formula := do
  if access.bytes = 0 then throw (.invalidWidth (.memoryRead access.bits))
  else
    match if keep then s.aligned? access.address access.bytes else none with
    | some id =>
      let e ← MonadExcept.ofExcept (s.expression id)
      pure e.formula
    | none =>
      let parts ← access.byteAddresses.reverse.mapM (s.byteFormula machine)
      Build.concatMany parts

end Symbolic

end Concolic
