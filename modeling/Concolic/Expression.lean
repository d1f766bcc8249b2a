import Concolic.Formula.Smt
import Concolic.Operand

/-
  Symbolic expressions: formulas recorded with what they were assigned to, the
  instruction that made them, and their taint.
-/

namespace Concolic

/-- What an expression was assigned to. -/
inductive Origin where
  /-- A root register. -/
  | register (reg : Register)
  | memory (access : Access)
  /-- Nothing: an intermediate value. -/
  | volatile
  deriving DecidableEq, Repr

structure Expression where
  id : Nat
  formula : Formula
  origin : Origin
  tainted : Bool := false
  comment : String
  /-- Text of the instruction that created the expression. -/
  disassembly : String := ""
  /-- Address of the instruction that created the expression. -/
  address : Option Address

/-- The expression as an SMT-LIB definition, with its comment. -/
def Expression.text (e : Expression) : String :=
  "(define-fun ref!" ++ toString e.id ++ " () (_ BitVec " ++ toString e.formula.width ++ ") " ++
    e.formula.text ++ ")" ++
    (if e.comment.isEmpty then ""
     else " ; " ++ e.comment ++ (if e.disassembly.isEmpty then "" else ": " ++ e.disassembly))

end Concolic
