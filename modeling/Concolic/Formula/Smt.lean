import Concolic.Formula.Basic

/-
  Formulas as SMT-LIB terms.

  A formula is written as a symbolic expression of the theory of arrays and
  bit-vectors. The theory's comparisons and conditions are Booleans and a
  formula's are one-bit words, so each is wrapped in the conversion it needs.
-/

namespace Concolic

/-- A symbolic expression: a word of the language, or a list in parentheses. -/
inductive SExpr where
  | atom (text : String)
  | list (items : List SExpr)

namespace SExpr

mutual

/-- The text of a symbolic expression, items separated by one blank. -/
def text : SExpr → String
  | atom text => text
  | list items => "(" ++ textItems items ++ ")"

def textItems : List SExpr → String
  | [] => ""
  | [item] => text item
  | item :: rest => text item ++ " " ++ textItems rest

end

/-- An operator applied to terms. -/
def app (head : String) (args : List SExpr) : SExpr := list (atom head :: args)

/-- An operator with numeral indices, such as `(_ extract 7 0)`. -/
def indexed (head : String) (indices : List Nat) : SExpr :=
  list (atom "_" :: atom head :: indices.map fun index => atom (toString index))

/-- A bit-vector literal in decimal. -/
def literal (value width : Nat) : SExpr := indexed ("bv" ++ toString value) [width]

end SExpr

namespace Formula

/-- The name of a variable in a term. -/
def varName (id : Nat) : String := "SymVar_" ++ toString id

/-- A rotation by a count that is not a constant: the theory only rotates by
numerals, so it is written as two shifts by the count modulo the width. -/
def rotationSmt (first second : String) (width : Nat) (operand count : SExpr) : SExpr :=
  let full := SExpr.literal width width
  let amount := SExpr.app "bvurem" [count, full]
  .app "bvor" [.app first [operand, amount], .app second [operand, .app "bvsub" [full, amount]]]

/-- The formula as an SMT-LIB term. -/
def toSmt : Formula → SExpr
  | constant value width => .literal value width
  | var id _ => .atom (varName id)
  | arith .rol left right =>
    match right.constant? with
    | some amount => .list [.indexed "rotate_left" [amount % left.width], toSmt left]
    | none => rotationSmt "bvshl" "bvlshr" left.width (toSmt left) (toSmt right)
  | arith .ror left right =>
    match right.constant? with
    | some amount => .list [.indexed "rotate_right" [amount % left.width], toSmt left]
    | none => rotationSmt "bvlshr" "bvshl" left.width (toSmt left) (toSmt right)
  | arith op left right => .app op.smtName [toSmt left, toSmt right]
  | compare op left right =>
    .app "ite" [.app op.smtName [toSmt left, toSmt right], .atom "#b1", .atom "#b0"]
  | unary op operand => .app op.smtName [toSmt operand]
  | extract high low operand => .list [.indexed "extract" [high, low], toSmt operand]
  | concat high low => .app "concat" [toSmt high, toSmt low]
  | zeroExtend width operand =>
    .list [.indexed "zero_extend" [width - operand.width], toSmt operand]
  | signExtend width operand =>
    .list [.indexed "sign_extend" [width - operand.width], toSmt operand]
  | ite cond onTrue onFalse =>
    .app "ite" [.app "=" [toSmt cond, .atom "#b1"], toSmt onTrue, toSmt onFalse]
  | memory _ => .atom "memory"
  | select array index => .app "select" [toSmt array, toSmt index]
  | store array index value => .app "store" [toSmt array, toSmt index, toSmt value]

/-- The text of the formula in SMT-LIB. -/
def text (f : Formula) : String := f.toSmt.text

end Formula

end Concolic
