/-
  The supported instruction set architectures.
-/

namespace Concolic

inductive Architecture where
  /-- 32-bit x86. -/
  | x86
  | x86_64
  | aarch64
  deriving DecidableEq, Repr

namespace Architecture

def name : Architecture → String
  | x86 => "X86"
  | x86_64 => "X86_64"
  | aarch64 => "AArch64"

/-- Whether the architecture runs the x86 instruction set. -/
def isX86 : Architecture → Bool
  | x86 | x86_64 => true
  | aarch64 => false

/-- Width of general registers and of addresses. -/
def addressWidth : Architecture → Nat
  | x86 => 32
  | x86_64 | aarch64 => 64

end Architecture

end Concolic
