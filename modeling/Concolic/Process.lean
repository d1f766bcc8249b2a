import Concolic.AArch64.Semantics
import Concolic.X86.Semantics

/-
  Processing of whole instructions.

  The results of earlier processing are cleared, the operation runs, and the
  modes then decide which of its expressions are kept. An expression that is
  dropped stays in the table, and what was bound to it falls back to its
  concrete value. A fault is an answer and no failure: what was done before it
  stays.
-/

namespace Concolic

namespace Architecture

/-- The mnemonics in the order of their numbers, with their meaning. -/
def opcodes : Architecture → List (String × Option (Step (Option Fault)))
  | x86 | x86_64 => X86.mnemonics.map fun (name, op) => (name, op.map X86.Op.execute)
  | aarch64 => AArch64.mnemonics.map fun (name, op) => (name, op.map AArch64.Op.execute)

/-- The number of the first opcode. -/
def firstOpcode : Nat := 1

/-- One more than the highest number of an opcode. -/
def opcodeCount (arch : Architecture) : Nat := firstOpcode + arch.opcodes.length

/-- The number of a mnemonic. -/
def opcodeNamed? (arch : Architecture) (name : String) : Option Nat :=
  (arch.opcodes.findIdx? fun entry => entry.1 == name).map (firstOpcode + ·)

/-- The meaning of an opcode, if it has one. -/
def semantics? (arch : Architecture) (opcode : Nat) : Option (Step (Option Fault)) :=
  if opcode < firstOpcode then none else (arch.opcodes[opcode - firstOpcode]?).bind Prod.snd

def isSupported (arch : Architecture) (opcode : Nat) : Bool := (arch.semantics? opcode).isSome

end Architecture

namespace Step

/-- Executes the instruction; an opcode without semantics is a fault. -/
def execute : Step (Option Fault) := do
  match (← arch).semantics? (← instruction).opcode with
  | none => return some .invalidOpcode
  | some action =>
    resolveOperands
    action

/-- Whether the modes keep an expression. -/
def keeps (modes : Modes) (e : Expression) : Bool :=
  (!modes.isOn .onlyOnSymbolized || e.formula.symbolic) && (!modes.isOn .onlyOnTainted || e.tainted)

/-- The expressions of the instruction. -/
def expressions : Step (List Expression) := do
  let symbolic := (← get).symbolic
  (← instruction).expressions.toList.mapM fun id => (symbolic.expression id : Step Expression)

/-- Unbinds an expression. -/
def drop (e : Expression) : Step Unit := Engine.modifySymbolic fun s => s.unbind e.id

/-- Sets the expressions of the instruction. -/
def list (kept : List Expression) : Step Unit :=
  modify fun frame => { frame with
    instruction.expressions := (kept.map Expression.id).toArray }

/-- Unbinds the expressions that the modes do not keep, and takes them off the
instruction. -/
def prune : Step Unit := do
  let modes := (← get).modes
  let all ← expressions
  (all.filter fun e => !keeps modes e).forM drop
  list (all.filter (keeps modes))

/-- Processes the instruction of the frame. -/
def process : Step (Option Fault) := do
  modify fun frame => { frame with instruction := frame.instruction.reset }
  let fault ← execute
  modify fun frame => { frame with instruction.fault := fault }
  prune
  let tainted := (← expressions).any Expression.tainted
  modify fun frame => { frame with instruction.tainted := tainted }
  return fault

end Step

end Concolic
