import Concolic.Architecture
import Concolic.Text.Quoted

/-
  What can go wrong, by cause, and the wording of each cause.

  A width fault names the widths that do not go together, an operand fault the
  way an instruction's operands do not suit its opcode. `Error.constantWidth`
  differs from the others: it is a request that no caller may make, and ends
  the work instead of being answered. A difference of widths below zero and an
  overflow of the arithmetic on operands are such requests as well.
-/

namespace Concolic

/-- Widths that do not go together. -/
inductive WidthFault where
  /-- A variable with no bits, or wider than a word. -/
  | variableWidth (width : Nat)
  /-- Two operands of the named operator. -/
  | operands (op : String) (left right : Nat)
  /-- An array where a word is needed. -/
  | arrayOperand
  /-- Bits that a formula of `width` bits does not have. -/
  | slice (high low width : Nat)
  /-- Nothing to concatenate. -/
  | noParts
  /-- The named extension from one width to another. -/
  | extension (op : String) (source target : Nat)
  | choice (cond onTrue onFalse : Nat)
  | selection (index array : Nat)
  | storing (index value array : Nat)
  /-- A formula recorded as the value of a register. -/
  | registerExpression (width : Nat) (register : String)
  /-- A formula recorded as the value of memory. -/
  | memoryExpression (width access : Nat)
  /-- A formula written to a register of another width. -/
  | registerWrite (width : Nat) (register : String)
  /-- A read of less than one byte. -/
  | memoryRead (width : Nat)
  /-- A difference below zero. -/
  | difference (left right : Nat)
  deriving DecidableEq, Repr

/-- Ways in which operands do not suit an opcode. -/
inductive OperandFault where
  | missing
  | accessWidth
  | widthMismatch
  | immediateDestination
  | memoryWriteWidth
  | leaSource
  | movzSource
  | accumulatorWidth
  /-- A number beyond the machine's integers. -/
  | overflow
  deriving DecidableEq, Repr

inductive Error where
  | invalidWidth (fault : WidthFault)
  | unknownExpression (id : Nat)
  | unknownVariable (id : Nat)
  | invalidRegister (id : Nat) (arch : Architecture)
  | unknownRegister (name : String) (arch : Architecture)
  | invalidOperand (opcode : Nat) (fault : OperandFault)
  | unknownMode (name : String)
  /-- A constant with no bits, or wider than a word. -/
  | constantWidth (width : Nat)
  deriving DecidableEq, Repr

namespace WidthFault

/-- The operation the widths were given to. -/
def operation : WidthFault → String
  | variableWidth _ => "variable"
  | operands op _ _ => op
  | arrayOperand => "unary"
  | slice _ _ _ => "extract"
  | noParts => "concat"
  | extension op _ _ => op
  | choice _ _ _ => "ite"
  | selection _ _ => "select"
  | storing _ _ _ => "store"
  | registerExpression _ _ => "register expression"
  | memoryExpression _ _ => "memory expression"
  | registerWrite _ _ => "register write"
  | memoryRead _ => "memory read"
  | difference _ _ => "difference"

def detail : WidthFault → String
  | variableWidth width => s!"{width} bits"
  | operands _ left right => s!"{left} and {right} bits"
  | arrayOperand => "array operand"
  | slice high low width => s!"bits {low}..={high} of {width}-bit node"
  | noParts => "no operands"
  | extension _ source target => s!"{source} bits to {target} bits"
  | choice cond onTrue onFalse => s!"condition {cond} bits, values {onTrue} and {onFalse} bits"
  | selection index array => s!"index {index} bits, array index {array} bits"
  | storing index value array =>
    s!"index {index} bits, value {value} bits, array index {array} bits"
  | registerExpression width register => s!"{width}-bit node for {register}"
  | memoryExpression width access => s!"{width}-bit node for {access}-bit access"
  | registerWrite width register => s!"{width}-bit node for {register}"
  | memoryRead width => s!"{width} bits"
  | difference left right => s!"{left} less {right} bits"

end WidthFault

def OperandFault.message : OperandFault → String
  | missing => "missing operand"
  | accessWidth => "memory access width"
  | widthMismatch => "operand width mismatch"
  | immediateDestination => "immediate destination"
  | memoryWriteWidth => "memory write width"
  | leaSource => "LEA source must be memory"
  | movzSource => "MOVZ needs an immediate"
  | accumulatorWidth => "accumulator width"
  | overflow => "arithmetic overflow"

/-- The wording of an error. -/
def Error.message : Error → String
  | invalidWidth fault => "Invalid widths for " ++ fault.operation ++ ": " ++ fault.detail
  | unknownExpression id => s!"Unknown symbolic expression ref!{id}"
  | unknownVariable id => s!"Unknown symbolic variable SymVar_{id}"
  | invalidRegister id arch =>
    "Register " ++ toString id ++ " is not available on " ++ arch.name
  | unknownRegister name arch => "No register named " ++ Text.quote name ++ " on " ++ arch.name
  | invalidOperand opcode fault =>
    "Invalid operand for opcode " ++ toString opcode ++ ": " ++ fault.message
  | unknownMode name => "Unknown mode " ++ Text.quote name
  | constantWidth width => s!"Invalid constant width {width}"

end Concolic
