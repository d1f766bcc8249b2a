import Concolic.Formula.Build

/-
  Simplification: a formula rebuilt from its leaves up under the rules in
  force. Each distinct part is rebuilt once.
-/

namespace Concolic.Formula

/-- Rebuilds a formula, with the parts already rebuilt at hand. -/
def rebuild (f : Formula) : StateT (Memo Formula) Build Formula :=
  match f with
  | constant _ _ | var _ _ | memory _ => pure f
  | arith op left right => Memo.remember f do
    let left ← rebuild left
    let right ← rebuild right
    Build.arith op left right
  | compare op left right => Memo.remember f do
    let left ← rebuild left
    let right ← rebuild right
    Build.compare op left right
  | unary op operand => Memo.remember f do
    let operand ← rebuild operand
    Build.unary op operand
  | extract high low operand => Memo.remember f do
    let operand ← rebuild operand
    Build.extract high low operand
  | concat high low => Memo.remember f do
    let high ← rebuild high
    let low ← rebuild low
    Build.concat high low
  | zeroExtend width operand => Memo.remember f do
    let operand ← rebuild operand
    Build.zeroExtend width operand
  | signExtend width operand => Memo.remember f do
    let operand ← rebuild operand
    Build.signExtend width operand
  | ite cond onTrue onFalse => Memo.remember f do
    let cond ← rebuild cond
    let onTrue ← rebuild onTrue
    let onFalse ← rebuild onFalse
    Build.ite cond onTrue onFalse
  | select array index => Memo.remember f do
    let array ← rebuild array
    let index ← rebuild index
    Build.select array index
  | store array index value => Memo.remember f do
    let array ← rebuild array
    let index ← rebuild index
    let value ← rebuild value
    Build.store array index value

/-- The formula rebuilt under the rules in force. -/
def simplify (f : Formula) : Build Formula := do
  let (result, _) ← (rebuild f).run {}
  pure result

end Concolic.Formula
