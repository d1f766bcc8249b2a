import Concolic.Error
import Concolic.Text.Blank

/-
  Modes: switches that change how formulas are built and which expressions are
  kept. A setting of the modes is a choice for each of them; every change is
  seen at once by everything that runs under the setting.
-/

namespace Concolic

inductive Mode where
  /-- Keep whole memory writes, so that a read of the same place and size gives
  back the formula written. -/
  | alignedMemory
  /-- Apply algebraic identities while building formulas. -/
  | astOptimizations
  /-- Bind a fresh variable to a register that an instruction leaves undefined. -/
  | concretizeUndefinedRegisters
  /-- Compute the value of an operator whose operands are all constants. -/
  | constantFolding
  /-- Keep memory as one array formula. -/
  | memoryArray
  /-- Keep only expressions in which a variable occurs. -/
  | onlyOnSymbolized
  /-- Keep only expressions whose result is tainted. -/
  | onlyOnTainted
  /-- Record a path constraint only for a symbolic program counter. -/
  | pcTrackingSymbolic
  /-- Read the memory array at the symbolic address of a load. -/
  | symbolizeLoad
  /-- Write the memory array at the symbolic address of a store. -/
  | symbolizeStore
  /-- Keep a symbolic rotation count. -/
  | symbolizeIndexRotation
  /-- Take an access for tainted when its base or index register is. -/
  | taintThroughPointers
  deriving DecidableEq, Repr

namespace Mode

/-- Every mode, in the order in which they are listed. -/
def all : List Mode :=
  [alignedMemory, astOptimizations, concretizeUndefinedRegisters, constantFolding, memoryArray,
    onlyOnSymbolized, onlyOnTainted, pcTrackingSymbolic, symbolizeLoad, symbolizeStore,
    symbolizeIndexRotation, taintThroughPointers]

/-- The name of a mode in a configuration. -/
def name : Mode → String
  | alignedMemory => "ALIGNED_MEMORY"
  | astOptimizations => "AST_OPTIMIZATIONS"
  | concretizeUndefinedRegisters => "CONCRETIZE_UNDEFINED_REGISTERS"
  | constantFolding => "CONSTANT_FOLDING"
  | memoryArray => "MEMORY_ARRAY"
  | onlyOnSymbolized => "ONLY_ON_SYMBOLIZED"
  | onlyOnTainted => "ONLY_ON_TAINTED"
  | pcTrackingSymbolic => "PC_TRACKING_SYMBOLIC"
  | symbolizeLoad => "SYMBOLIZE_LOAD"
  | symbolizeStore => "SYMBOLIZE_STORE"
  | symbolizeIndexRotation => "SYMBOLIZE_INDEX_ROTATION"
  | taintThroughPointers => "TAINT_THROUGH_POINTERS"

/-- The name of a mode in a listing and in JSON. -/
def title : Mode → String
  | alignedMemory => "AlignedMemory"
  | astOptimizations => "AstOptimizations"
  | concretizeUndefinedRegisters => "ConcretizeUndefinedRegisters"
  | constantFolding => "ConstantFolding"
  | memoryArray => "MemoryArray"
  | onlyOnSymbolized => "OnlyOnSymbolized"
  | onlyOnTainted => "OnlyOnTainted"
  | pcTrackingSymbolic => "PcTrackingSymbolic"
  | symbolizeLoad => "SymbolizeLoad"
  | symbolizeStore => "SymbolizeStore"
  | symbolizeIndexRotation => "SymbolizeIndexRotation"
  | taintThroughPointers => "TaintThroughPointers"

/-- The mode of a name, which may be in any case and have white space around
it. -/
def parse (text : String) : Except Error Mode :=
  match all.find? fun mode => Text.sameName mode.name.toList (Text.trim text.toList) with
  | some mode => .ok mode
  | none => .error (.unknownMode text)

end Mode

/-- A setting of the modes. -/
structure Modes where
  isOn : Mode → Bool

namespace Modes

/-- Every mode off. -/
def allOff : Modes := ⟨fun _ => false⟩

def set (modes : Modes) (mode : Mode) (enabled : Bool) : Modes :=
  ⟨fun other => if other = mode then enabled else modes.isOn other⟩

/-- The setting to start from: path constraints for symbolic program counters
only, and no other mode. -/
def initial : Modes := allOff.set .pcTrackingSymbolic true

/-- The modes that are on, in listing order. -/
def enabled (modes : Modes) : List Mode := Mode.all.filter modes.isOn

/-- Turns on the named modes and no other. -/
def ofNames (names : List String) : Except Error Modes :=
  names.foldlM (fun modes name => do
    let mode ← Mode.parse name
    pure (modes.set mode true)) allOff

/-- The modes that are on, as a set in braces. -/
def listing (modes : Modes) : String :=
  "\x7b" ++ String.intercalate ", " (modes.enabled.map Mode.title) ++ "\x7d"

end Modes

end Concolic
