import Concolic.Step

/-
  The sixteen x86 conditions: eight tests of the status flags and their
  negations.
-/

namespace Concolic

namespace X86

/-- A test of status flags. -/
inductive FlagTest where
  | overflow
  | below
  | equal
  | belowOrEqual
  | sign
  | parity
  | less
  | lessOrEqual
  deriving DecidableEq, Repr

/-- A test or its negation. -/
structure Condition where
  test : FlagTest
  negated : Bool := false
  deriving DecidableEq, Repr

/-- The flags that a test reads. -/
def FlagTest.flags : FlagTest → List Nat
  | overflow => [of]
  | below => [cf]
  | equal => [zf]
  | belowOrEqual => [cf, zf]
  | sign => [sf]
  | parity => [pf]
  | less => [sf, of]
  | lessOrEqual => [zf, sf, of]

/-- Whether sign and overflow differ, as they do after a comparison with a
greater signed number. -/
def signedLess : Step Formula := do
  let sign ← Step.readRegisterId sf
  let overflow ← Step.readRegisterId of
  Build.xor sign overflow

/-- The one-bit formula of a test. -/
def FlagTest.formula : FlagTest → Step Formula
  | overflow => Step.readRegisterId of
  | below => Step.readRegisterId cf
  | equal => Step.readRegisterId zf
  | belowOrEqual => do
    let carry ← Step.readRegisterId cf
    let zero ← Step.readRegisterId zf
    Build.or carry zero
  | sign => Step.readRegisterId sf
  | parity => Step.readRegisterId pf
  | less => signedLess
  | lessOrEqual => do
    let less ← signedLess
    let zero ← Step.readRegisterId zf
    Build.or zero less

namespace Condition

/-- The conditions by the ends of mnemonics, in alphabetical order. -/
def suffixes : List (String × Condition) := [
  ("A", ⟨.belowOrEqual, true⟩), ("AE", ⟨.below, true⟩), ("B", ⟨.below, false⟩),
  ("BE", ⟨.belowOrEqual, false⟩), ("E", ⟨.equal, false⟩), ("G", ⟨.lessOrEqual, true⟩),
  ("GE", ⟨.less, true⟩), ("L", ⟨.less, false⟩), ("LE", ⟨.lessOrEqual, false⟩),
  ("NE", ⟨.equal, true⟩), ("NO", ⟨.overflow, true⟩), ("NP", ⟨.parity, true⟩),
  ("NS", ⟨.sign, true⟩), ("O", ⟨.overflow, false⟩), ("P", ⟨.parity, false⟩),
  ("S", ⟨.sign, false⟩)]

/-- The one-bit formula of a condition. -/
def formula (c : Condition) : Step Formula := do
  let holds ← c.test.formula
  if c.negated then Build.not holds else return holds

/-- The formula of a condition, and whether a flag that it reads is tainted. -/
def read (c : Condition) : Step (Formula × Bool) := do
  let holds ← c.formula
  let tainted ← Step.anyRegisterTainted c.test.flags
  return (holds, tainted)

end Condition

end X86

end Concolic
