import Concolic.Engine
import Concolic.Instruction

/-
  What the semantics of instructions are made of.

  A step is an action on a frame: an engine with the instruction that it is
  processing. A write records the formula as an expression, binds it, and stores
  its concrete value, so that the symbolic and the concrete state change
  together; the expression is then stamped with the taint that its destination
  has afterwards. A step that fails keeps what it had done before.

  Correspondence (interface ↔ here), where more than the spelling differs:
    `resolve_memory_operands`, `next_address` ↔ `resolveOperands`, `fallThrough`
    `write` with `stamp`, `invalid_operand` ↔ `assign`, `refuse`
    `undefined`, `undefined_unless` ↔ `undefine`, `undefineUnless`
    `control_flow`, `branch` ↔ `advance`, `jump`
-/

namespace Concolic

/-- An engine in the middle of an instruction. -/
structure Frame extends engine : Engine where
  instruction : Instruction

/-- A part of the processing of an instruction. -/
abbrev Step := EStateM Error Frame

/-- Acts on the engine of the frame. -/
def Step.exec {α : Type} (action : Exec α) : Step α := fun frame =>
  match action frame.engine with
  | .ok a engine => .ok a { frame with engine }
  | .error error engine => .error error { frame with engine }

instance : MonadLift Exec Step := ⟨Step.exec⟩

namespace Step

def arch : Step Architecture := return (← get).arch

def instruction : Step Instruction := return (← get).instruction

/-- Whether a mode is on. -/
def isOn (mode : Mode) : Step Bool := return (← get).modes.isOn mode

/-- The address of the instruction that follows in memory. -/
def fallThrough : Step Address := return (← get).instruction.fallThrough

/-- The value of a formula now. -/
def evaluate (f : Formula) : Step Nat := return (← get).evaluate f

/-- Fails because the operands do not suit the opcode. -/
def refuse {α : Type} (fault : OperandFault) : Step α := do
  throw (.invalidOperand (← instruction).opcode fault)

/-- A number shifted to the left in a word of the greatest width. -/
def shiftLeft (value amount : Nat) : Step Nat :=
  if amount < Word.limit then return Word.truncate Word.limit (value <<< amount)
  else refuse .overflow

/-- A sum of signed 64-bit numbers. -/
def signedSum (a b : Int) : Step Int :=
  if Int64.minValue.toInt ≤ a + b ∧ a + b ≤ Int64.maxValue.toInt then return a + b
  else refuse .overflow

def operandCount : Step Nat := return (← instruction).operands.length

def operand? (i : Nat) : Step (Option Operand) := return (← instruction).operands[i]?

def operand (i : Nat) : Step Operand := do
  match ← operand? i with
  | some op => return op
  | none => refuse .missing

def register (id : Nat) : Step Register := do
  (← arch).register id

/-! Taint. -/

def isTainted (op : Operand) : Step Bool := Engine.isTainted op

def isRegisterTainted (id : Nat) : Step Bool := do
  let reg ← register id
  return (← get).taint.isRegister reg

/-- Whether one of several registers is tainted. -/
def anyRegisterTainted (ids : List Nat) : Step Bool := do
  let tainted ← ids.mapM isRegisterTainted
  return tainted.any id

def setTaint (dst : Operand) (tainted : Bool) : Step Bool := Engine.setTaint dst tainted

def assignTaint (dst src : Operand) : Step Bool := Engine.assignTaint dst src

def unionTaint (dst src₁ src₂ : Operand) : Step Bool := Engine.unionTaint dst src₁ src₂

/-! Reading. -/

/-- What the program counter reads as while the instruction executes. -/
def counterValue (arch : Architecture) (inst : Instruction) : Address :=
  if arch.isX86 then inst.fallThrough else inst.address

/-- The formula of a register as the instruction reads it. -/
def readRegister (reg : Register) : Step Formula := do
  let arch ← arch
  if arch.isZeroRegister reg then Build.zero reg.bits
  else if arch.isProgramCounter reg then
    Build.constant (counterValue arch (← instruction)).toNat reg.bits
  else Engine.registerFormula reg

def readRegisterId (id : Nat) : Step Formula := do
  readRegister (← register id)

/-- The formula of a register in the width of addresses. -/
def addressPart (reg : Register) : Step Formula := do
  let f ← readRegister reg
  Build.resize f (← arch).addressWidth

/-- The displacement of an access on top of its base register. -/
def addressStart (access : Access) (displacement : Formula) : Step Formula := do
  match access.base with
  | some reg =>
    let base ← addressPart reg
    Build.add base displacement
  | none => return displacement

/-- The formula of an index register times its scale; a scale of zero is one. -/
def scaledIndex (reg : Register) (scale : Nat) : Step Formula := do
  let index ← addressPart reg
  if scale ≤ 1 then return index
  else
    let factor ← Build.constant scale (← arch).addressWidth
    Build.mul index factor

/-- The formula of the address of an access: base plus scaled index plus
displacement. -/
def effectiveAddress (access : Access) : Step Formula := do
  let width := (← arch).addressWidth
  let displacement ← Build.constant (Word.wrap width access.displacement.toInt) width
  let start ← addressStart access displacement
  match access.index with
  | some reg =>
    let scaled ← scaledIndex reg access.scale
    Build.add start scaled
  | none => return start

/-- Sets the concrete address of a memory operand. -/
def setAddress (i : Nat) (address : Address) : Step Unit :=
  modify fun frame => { frame with
    instruction.operands := frame.instruction.operands.modify i fun op =>
      match op with
      | .memory access => .memory { access with address }
      | op => op }

/-- The address of a memory operand that has a base or an index. -/
def computedAddress (op : Operand) : Step (Option Address) := do
  match op with
  | .memory access =>
    if access.isComputed then
      if access.bits = 0 || access.bits % 8 ≠ 0 then refuse .accessWidth
      else
        let address ← effectiveAddress access
        return some (← evaluate address).toUInt64
    else return none
  | _ => return none

def resolveOperand (i : Nat) : Step Unit := do
  let op ← operand i
  match ← computedAddress op with
  | some address => setAddress i address
  | none => return ()

/-- Computes the addresses of the memory operands from the state before the
instruction. -/
def resolveOperands : Step Unit := do
  (List.range (← operandCount)).forM resolveOperand

/-- The place of an access in the memory array: the formula of its address if
`symbolic` is on, and the concrete address otherwise. -/
def arrayIndex (access : Access) (symbolic : Mode) : Step Formula := do
  if ← isOn symbolic then effectiveAddress access
  else Build.constant access.address.toNat (← arch).addressWidth

/-- The formula of memory as the instruction reads it. -/
def load (access : Access) : Step Formula := do
  if ← isOn .memoryArray then
    let index ← arrayIndex access .symbolizeLoad
    Engine.arrayLoad index access.bytes
  else Engine.memoryFormula access

/-- The formula of an operand in its own width. -/
def read : Operand → Step Formula
  | .immediate imm => Build.constant imm.value.toNat imm.bits
  | .register reg => readRegister reg
  | .memory access => load access

/-- The formula of an operand of `width` bits; an immediate is extended by its
sign or cut to that width. -/
def readSized (op : Operand) (width : Nat) : Step Formula := do
  match op with
  | .immediate imm => Build.constant (imm.sized width) width
  | op => if op.bits ≠ width then refuse .widthMismatch else read op

/-! Writing. -/

/-- Lists an expression with the instruction, and notes the instruction's text
in it. -/
def record (id : Nat) : Step Unit := do
  let text := (← instruction).disassembly
  if !text.isEmpty then
    Engine.modifySymbolic fun s => s.setDisassembly id text
  modify fun frame => { frame with
    instruction.expressions := frame.instruction.expressions.push id }

/-- Records the value that the instruction gives to a root register. -/
def writeRoot (root : Register) (f : Formula) (comment : String) : Step Nat := do
  let id ← Engine.create f (.register root) comment (some (← instruction).address)
  let value ← evaluate f
  modify fun frame => { frame with
    engine.machine := frame.machine.setRegister root value }
  record id
  return id

/-- Records the value that the instruction gives to memory. -/
def writeMemory (access : Access) (f : Formula) (comment : String) : Step Nat := do
  if f.width ≠ access.bits then refuse .memoryWriteWidth
  else
    let id ← Engine.create f (.memory access) comment (some (← instruction).address)
    let value ← evaluate f
    modify fun frame => { frame with
      engine.machine := frame.machine.setValue access.address access.bytes value }
    if ← isOn .memoryArray then
      let index ← arrayIndex access .symbolizeStore
      Engine.arrayStore index f
    record id
    return id

/-- Records a formula as the new value of a destination. A zero register
discards it. -/
def write (dst : Operand) (f : Formula) (comment : String) : Step (Option Nat) := do
  match dst with
  | .immediate _ => refuse .immediateDestination
  | .register reg =>
    if (← arch).isZeroRegister reg then return none
    else
      let merged ← Engine.mergeRegister reg f
      let root ← register reg.parent
      some <$> writeRoot root merged comment
  | .memory access => some <$> writeMemory access f comment

/-- Sets the taint of an expression. -/
def stamp (expression : Option Nat) (tainted : Bool) : Step Unit := do
  match expression with
  | some id => Engine.modifySymbolic fun s => s.setTainted id tainted
  | none => return ()

/-- Writes a destination, then determines its taint and stamps the expression
with it. -/
def assign (dst : Operand) (f : Formula) (comment : String) (taint : Step Bool) : Step Bool := do
  let expression ← write dst f comment
  let tainted ← taint
  stamp expression tainted
  return tainted

/-- Writes a register and sets its taint. -/
def writeRegister (id : Nat) (f : Formula) (comment : String) (tainted : Bool) : Step Unit := do
  let dst := Operand.register (← register id)
  discard (assign dst f comment (setTaint dst tainted))

/-- Records an intermediate value. -/
def volatile (f : Formula) (comment : String) (tainted : Bool) : Step Unit := do
  let id ← Engine.create f .volatile comment (some (← instruction).address)
  record id
  stamp (some id) tainted

/-- A fresh variable with the present value of a register. -/
def unknownValue (reg : Register) : Step Formula := do
  Build.newVariable reg.bits (some "undefined") ((← get).machine.register reg)

/-- Gives a register a fresh untainted variable. -/
def forget (id : Nat) : Step Unit := do
  let f ← unknownValue (← register id)
  writeRegister id f "Undefined" false

/-- Gives a register a fresh variable unless the one-bit `keep` holds. -/
def forgetUnless (keep : Formula) (id : Nat) : Step Unit := do
  let reg ← register id
  let old ← readRegister reg
  let fresh ← unknownValue reg
  let f ← Build.ite keep old fresh
  let kept ← evaluate keep
  let tainted ← isRegisterTainted id
  writeRegister id f "Undefined" (kept ≠ 0 && tainted)

/-- Does what is done to an undefined register, or leaves it, as the modes say. -/
def ifUndefined (x : Step Unit) : Step Unit := do
  if ← isOn .concretizeUndefinedRegisters then
    x

def undefine (id : Nat) : Step Unit := ifUndefined (forget id)

def undefineUnless (keep : Formula) (id : Nat) : Step Unit := ifUndefined (forgetUnless keep id)

/-! Control flow. -/

/-- Sets where control goes. -/
def setNext (branch taken : Bool) (next : Address) : Step Unit :=
  modify fun frame => { frame with
    instruction := { frame.instruction with branch, taken, next } }

/-- Ends an instruction that is no branch: the program counter moves past it. -/
def advance : Step Unit := do
  let pc := (← arch).programCounter
  let next ← fallThrough
  let f ← Build.constant next.toNat pc.bits
  writeRegister pc.id f "Program Counter" false
  setNext false false next

/-- Control arrives at the present value of `target`. A conditional branch is
taken when that is not the instruction that follows. -/
def arrive (target : Formula) (conditional : Bool) : Step Unit := do
  let next := (← evaluate target).toUInt64
  setNext true (!conditional || next != (← fallThrough)) next
  Engine.pushConstraint target (← instruction).address next

/-- Ends a branch to `target`. -/
def jump (target : Formula) (tainted conditional : Bool) : Step Unit := do
  let pc := (← arch).programCounter
  let target ← Build.resize target pc.bits
  writeRegister pc.id target "Program Counter" tainted
  arrive target conditional

/-- The choice of a conditional branch: `target`, or the instruction that
follows. -/
def choose (condition target : Formula) (width : Nat) : Step Formula := do
  let next ← Build.constant (← fallThrough).toNat width
  Build.ite condition target next

/-- Completes an instruction that is no branch. -/
def complete (action : Step Unit) : Step (Option Fault) := do
  action
  advance
  return none

/-- Completes an instruction that sets the program counter itself. -/
def completeBranch (action : Step Unit) : Step (Option Fault) := do
  action
  return none

end Step

end Concolic
