import Concolic.Mode
import Concolic.Symbolic
import Concolic.Taint

/-
  The engine: one architecture with its modes, the formulas built, the
  symbolic, taint and concrete states. An operation on the engine that fails
  keeps what it had done before it failed.

  Correspondence (interface ↔ here), where more than the spelling differs:
    `AstCtx`, `Node` ↔ `Context`, `Formula`
    `ConcreteState`, `TaintState` ↔ `Machine`, `Taint`
    `memory_array_load`, `memory_array_store` ↔ `arrayLoad`, `arrayStore`
    `push_path_constraint`, `flip_last_branch` ↔ `pushConstraint`, `flipLast`
    `set_concrete_register_value`, `set_concrete_memory` ↔ `setRegister`, `setMemory`
-/

namespace Concolic

structure Engine extends context : Context where
  arch : Architecture
  modes : Modes
  symbolic : Symbolic := {}
  taint : Taint := {}
  machine : Machine := {}

/-- A new engine. -/
abbrev Engine.new (arch : Architecture) : Engine := { arch, modes := .initial }

/-- The rules for formulas under a setting of the modes. -/
def Modes.rules (modes : Modes) : Rules :=
  { folding := modes.isOn .constantFolding, identities := modes.isOn .astOptimizations }

/-- An operation on an engine. -/
abbrev Exec := EStateM Error Engine

/-- Builds formulas in the engine's context, under its modes. -/
def Exec.build {α : Type} (action : Build α) : Exec α := fun e =>
  match action e.modes.rules e.context with
  | .ok a context => .ok a { e with context }
  | .error error context => .error error { e with context }

instance : MonadLift Build Exec := ⟨Exec.build⟩

instance {σ : Type} : MonadLift (Except Error) (EStateM Error σ) := ⟨MonadExcept.ofExcept⟩

namespace Engine

/-- The current values of variables and memory bytes. -/
def valuation (e : Engine) : Valuation := e.context.valuation e.machine.byte

/-- The value of a formula, over the concrete memory. -/
def evaluate (e : Engine) (f : Formula) : Nat := f.value e.valuation

/-- Whether a mode is on. -/
def isOn (mode : Mode) : Exec Bool := do
  return (← get).modes.isOn mode

/-- Changes the symbolic state, unless the change fails. -/
def modifySymbolic (change : Symbolic → Except Error Symbolic) : Exec Unit := do
  let symbolic ← change (← get).symbolic
  modify fun e => { e with symbolic }

/-- Records an expression and binds it to its origin. -/
def create (f : Formula) (origin : Origin) (comment : String) (address : Option Address) :
    Exec Nat := do
  let e ← get
  let (id, symbolic) ← e.symbolic.create (e.modes.isOn .alignedMemory) f origin comment address
  modify fun e => { e with symbolic }
  return id

/-- The formula of a register. -/
def registerFormula (reg : Register) : Exec Formula := do
  let e ← get
  e.symbolic.registerFormula e.machine reg

/-- The formula of a register's root after a write to the register. -/
def mergeRegister (reg : Register) (value : Formula) : Exec Formula := do
  let e ← get
  e.symbolic.mergeRegister e.arch e.machine reg value

/-- The formula of memory, from the bindings of its bytes. -/
def memoryFormula (access : Access) : Exec Formula := do
  let e ← get
  e.symbolic.memoryFormula (e.modes.isOn .alignedMemory) e.machine access

/-! Memory as one array. -/

/-- The current memory array; the initial memory if none was needed before. -/
def memoryArray : Exec Formula := do
  let e ← get
  match e.symbolic.array with
  | some array => return array
  | none =>
    let array ← Build.memoryArray e.arch.addressWidth
    modify fun e => { e with symbolic := { e.symbolic with array := some array } }
    return array

/-- The place of the byte `offset` above an index. -/
def arrayPlace (index : Formula) (offset : Nat) : Build Formula := do
  let offset ← Build.constant offset index.width
  Build.add index offset

/-- The little-endian word of `bytes` bytes of the memory array at an index. -/
def arrayLoad (index : Formula) (bytes : Nat) : Exec Formula := do
  let array ← memoryArray
  let parts ← (List.range bytes).reverse.mapM fun i => (do
    let place ← arrayPlace index i
    Build.select array place : Build Formula)
  Build.concatMany parts

/-- Stores a word into the memory array at an index, little-endian. -/
def arrayStore (index value : Formula) : Exec Unit := do
  let array ← memoryArray
  let array ← (List.range (value.width / 8)).foldlM (fun array i => (do
    let place ← arrayPlace index i
    let byte ← Build.extract (i * 8 + 7) (i * 8) value
    Build.store array place byte : Build Formula)) array
  modify fun e => { e with symbolic := { e.symbolic with array := some array } }

/-! Symbolization. -/

/-- Replaces the value of a register by a fresh variable with its concrete
value. -/
def symbolizeRegister (reg : Register) : Exec Nat := do
  let value := (← get).machine.register reg
  let variableFormula ← Build.newVariable reg.bits (some reg.name) value
  let merged ← mergeRegister reg variableFormula
  let parent ← (← get).arch.register reg.parent
  create merged (.register parent) "Register symbolization" none

/-- Replaces the value of memory by a fresh variable with its concrete value. -/
def symbolizeMemory (access : Access) : Exec Nat := do
  let e ← get
  let variableFormula ← Build.newVariable access.bits none (e.machine.accessValue access)
  let id ← create variableFormula (.memory access) "Memory symbolization" none
  if e.modes.isOn .memoryArray then
    let index ← Build.constant access.address.toNat e.arch.addressWidth
    arrayStore index variableFormula
  return id

/-! Path constraints. -/

/-- One outcome of a two-way branch to a constant target. -/
def outcome (pc : Formula) (source target : Address) (dest : Formula) (address : Nat) :
    Build Branch := do
  let constraint ← Build.eq pc dest
  return { taken := address == target.toNat, source, target := address.toUInt64, constraint }

/-- The outcomes of a jump to `target` when the program counter is given by
`pc`: two where it is a choice between two constants that differ, and one
otherwise. -/
def outcomes (pc : Formula) (source target : Address) : Build (List Branch) :=
  let single : Build (List Branch) := do
    let dest ← Build.constant target.toNat pc.width
    let constraint ← Build.eq pc dest
    return [{ taken := true, source, target, constraint }]
  match pc with
  | .ite _ onTrue onFalse =>
    match onTrue.constant?, onFalse.constant? with
    | some a, some b =>
      if a ≠ b then do
        let first ← outcome pc source target onTrue a
        let second ← outcome pc source target onFalse b
        return [first, second]
      else single
    | _, _ => single
  | _ => single

/-- Records a control-flow decision, unless only symbolic ones are recorded and
this one is not. -/
def pushConstraint (pc : Formula) (source target : Address) : Exec Unit := do
  if (← isOn .pcTrackingSymbolic) && !pc.symbolic then return ()
  else
    let branches ← outcomes pc source target
    modify fun e => { e with symbolic := { e.symbolic with
      constraints := e.symbolic.constraints.push { branches } } }

/-- The condition of the path so far. -/
def pathPredicate : Exec Formula := do
  Path.predicate (← get).symbolic.constraints.toList

/-- The condition of the path that leaves the present one at the last decision
that had an alternative. -/
def flipLast : Exec (Option Formula) := do
  Path.flipLast (← get).symbolic.constraints.toList

def clearConstraints (e : Engine) : Engine :=
  { e with symbolic := { e.symbolic with constraints := #[] } }

/-! Taint. -/

/-- Whether the registers of an address taint what is accessed through it. -/
def pointerTaint (e : Engine) : Bool := e.modes.isOn .taintThroughPointers

def isTainted (op : Operand) : Exec Bool := do
  let e ← get
  return e.taint.isOperand e.pointerTaint op

/-- Changes the taint state by an operation that answers the taint of its
destination. -/
def retaint (change : Taint → Bool × Taint) : Exec Bool := do
  let (tainted, taint) := change (← get).taint
  modify fun e => { e with taint }
  return tainted

def setTaint (dst : Operand) (tainted : Bool) : Exec Bool :=
  retaint fun t => t.setOperand tainted dst

/-- The destination takes the taint of a source. -/
def assignTaint (dst src : Operand) : Exec Bool := do
  let pointers := (← get).pointerTaint
  retaint fun t => t.assign pointers dst src

/-- The destination is tainted if one of two sources is. -/
def unionTaint (dst src₁ src₂ : Operand) : Exec Bool := do
  let pointers := (← get).pointerTaint
  retaint fun t => t.union pointers dst src₁ src₂

/-! The concrete state as seen from outside. -/

/-- Sets a register and unbinds its root. -/
def setRegister (e : Engine) (reg : Register) (value : Nat) : Engine :=
  { e with
    machine := e.machine.setRegister reg value, symbolic := e.symbolic.concretizeRegister reg }

/-- Writes bytes and unbinds them. -/
def setMemory (e : Engine) (address : Address) (bytes : List UInt8) : Engine :=
  { e with
    machine := e.machine.setBytes address bytes,
    symbolic := (Access.addressesFrom address bytes.length).foldl Symbolic.concretizeByte
      e.symbolic }

end Engine

end Concolic
