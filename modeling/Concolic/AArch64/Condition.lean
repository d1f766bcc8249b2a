import Concolic.AArch64.Opcode
import Concolic.Flags

/-
  The AArch64 condition flags: how instructions set them, and how conditions
  read them.
-/

namespace Concolic

namespace AArch64

/-- The carry flag; that of a difference is set when nothing was borrowed. -/
def carry (kind : Flags.Kind) (differ left right result : Formula) : Build Formula := do
  let out ← Flags.carry kind differ left right result
  match kind with
  | .sum => return out
  | .difference => Build.not out

/-- How the carry and overflow flags follow from an operation. -/
inductive FlagKind where
  | arithmetic (kind : Flags.Kind)
  /-- Both are cleared. -/
  | bitwise
  deriving DecidableEq, Repr

/-- Writes the flags N, Z, C and V of a result. -/
def writeFlags (kind : FlagKind) (left right result : Formula) (tainted : Bool) : Step Unit := do
  let negative ← Flags.sign result
  let zero ← Flags.isZero result
  Step.writeRegister n negative "Negative flag" tainted
  Step.writeRegister z zero "Zero flag" tainted
  let differ ← Build.xor left right
  match kind with
  | .arithmetic kind =>
    let carry ← carry kind differ left right result
    let overflow ← Flags.overflow kind differ left right result
    Step.writeRegister c carry "Carry flag" tainted
    Step.writeRegister v overflow "Overflow flag" tainted
  | .bitwise =>
    let off ← Build.flag false
    Step.writeRegister c off "Carry flag" false
    Step.writeRegister v off "Overflow flag" false

/-- The formulas of the four flags. -/
structure FlagFormulas where
  n : Formula
  z : Formula
  c : Formula
  v : Formula

def readFlags : Step FlagFormulas := do
  let n ← Step.readRegisterId AArch64.n
  let z ← Step.readRegisterId AArch64.z
  let c ← Step.readRegisterId AArch64.c
  let v ← Step.readRegisterId AArch64.v
  return { n, z, c, v }

namespace Condition

/-- The flags that a condition reads. -/
def flags : Condition → List Nat
  | eq | ne => [z]
  | hs | lo => [c]
  | mi | pl => [n]
  | vs | vc => [v]
  | hi | ls => [c, z]
  | ge | lt => [n, v]
  | gt | le => [n, z, v]

/-- The one-bit formula of a condition. -/
def formula (condition : Condition) (f : FlagFormulas) : Build Formula := do
  match condition with
  | eq => return f.z
  | ne => Build.not f.z
  | hs => return f.c
  | lo => Build.not f.c
  | mi => return f.n
  | pl => Build.not f.n
  | vs => return f.v
  | vc => Build.not f.v
  | hi =>
    let nonZero ← Build.not f.z
    Build.and f.c nonZero
  | ls =>
    let noCarry ← Build.not f.c
    Build.or noCarry f.z
  | ge => Build.eq f.n f.v
  | lt => Build.ne f.n f.v
  | gt =>
    let nonZero ← Build.not f.z
    let notLess ← Build.eq f.n f.v
    Build.and nonZero notLess
  | le =>
    let less ← Build.ne f.n f.v
    Build.or f.z less

/-- The formula of a condition, and whether a flag that it reads is tainted. -/
def read (condition : Condition) : Step (Formula × Bool) := do
  let flags ← readFlags
  let holds ← condition.formula flags
  let tainted ← Step.anyRegisterTainted condition.flags
  return (holds, tainted)

end Condition

end AArch64

end Concolic
