import Concolic.Proofs.Checked
import Concolic.Proofs.Smt.Theory

/-
  The operators of formulas as bit-vector operators.

  Each operator on words of 1 to 128 bits is one of SMT-LIB, given here on `BitVec`
  with its conventions written out: a quotient by zero is all ones, the signed quotient
  of a negative word by zero is one, a remainder by zero is the dividend, and a
  rotation turns by the count modulo the width. A shift by the width or more leaves
  nothing, or copies of the sign, by the definition of the shifts of `BitVec`.
-/

namespace Concolic

open Formula (WordWidth)
open Word

variable {width : Nat}

def ArithOp.onVectors (x y : BitVec width) : ArithOp → BitVec width
  | add => x + y
  | sub => x - y
  | mul => x * y
  | udiv => if y = .ofNat width 0 then .allOnes width else x / y
  | sdiv =>
    if y = .ofNat width 0 then (if x.msb then .ofNat width 1 else .allOnes width) else x.sdiv y
  | urem => if y = .ofNat width 0 then x else x % y
  | srem => if y = .ofNat width 0 then x else x.srem y
  | and => x &&& y
  | or => x ||| y
  | xor => x ^^^ y
  | shl => x <<< y.toNat
  | lshr => x >>> y.toNat
  | ashr => x.sshiftRight y.toNat
  | rol => x.rotateLeft (y.toNat % width)
  | ror => x.rotateRight (y.toNat % width)

def UnaryOp.onVector (x : BitVec width) : UnaryOp → BitVec width
  | not => ~~~x
  | neg => -x

def CompareOp.onVectors (x y : BitVec width) : CompareOp → Bool
  | eq => x = y
  | ne => x ≠ y
  | ult => x.toNat < y.toNat
  | ule => x.toNat ≤ y.toNat
  | ugt => x.toNat > y.toNat
  | uge => x.toNat ≥ y.toNat
  | slt => x.toInt < y.toInt
  | sle => x.toInt ≤ y.toInt
  | sgt => x.toInt > y.toInt
  | sge => x.toInt ≥ y.toInt

section

variable (hw : WordWidth width) (x y : BitVec width)

include hw

theorem ArithOp.apply_eq_onVectors (op : ArithOp) :
    op.apply width x.toNat y.toNat = (op.onVectors x y).toNat := by
  obtain ⟨hpos, hlim⟩ := hw
  have hturn : y.toNat % width % width = y.toNat % width := Nat.mod_mod _ _
  cases op with
  | add => exact add_eq hlim x y
  | sub => exact sub_eq hlim x y
  | mul => exact mul_eq hlim x y
  | udiv => exact udiv_eq hlim x y
  | sdiv =>
    refine (sdiv_eq hlim x y).trans (congrArg BitVec.toNat ?_)
    by_cases hy : y = BitVec.ofNat width 0
    · rw [onVectors, if_pos hy, hy, BitVec.smtSDiv_zero, BitVec.slt_zero_eq_msb]
    · rw [onVectors, if_neg hy, smtSDiv_of_ne hy]
  | urem =>
    refine (urem_eq hlim x y).trans (congrArg BitVec.toNat ?_)
    by_cases hy : y = BitVec.ofNat width 0
    · rw [onVectors, if_pos hy, hy, BitVec.umod_zero]
    · rw [onVectors, if_neg hy]
  | srem =>
    refine (srem_eq hlim x y).trans (congrArg BitVec.toNat ?_)
    by_cases hy : y = BitVec.ofNat width 0
    · rw [onVectors, if_pos hy, hy, BitVec.srem_zero]
    · rw [onVectors, if_neg hy]
  | and => exact truncate_toNat hlim (x &&& y)
  | or => exact truncate_toNat hlim (x ||| y)
  | xor => exact truncate_toNat hlim (x ^^^ y)
  | shl => exact shl_eq hlim x y.toNat
  | lshr => exact lshr_eq hlim x y.toNat
  | ashr => exact ashr_eq hlim x y.toNat
  | rol =>
    rw [onVectors, BitVec.rotateLeft, hturn]
    exact rol_eq hlim hpos x y.toNat
  | ror =>
    rw [onVectors, BitVec.rotateRight, hturn]
    exact ror_eq hlim hpos x y.toNat

theorem UnaryOp.apply_eq_onVector (op : UnaryOp) :
    op.apply width x.toNat = (op.onVector x).toNat := by
  cases op with
  | not => exact not_eq hw.2 x
  | neg => exact neg_eq hw.2 x

theorem CompareOp.holds_eq_onVectors (op : CompareOp) :
    op.holds width x.toNat y.toNat = op.onVectors x y := by
  cases op <;> simp [holds, onVectors, signed_eq hw.2, ← BitVec.toNat_inj] <;> rfl

end

/-- **Operators on words are those of SMT-LIB.** On words of any width from 1 to 128
bits, every operator worked out in integers of 128 bits is defined, and has the value of
the operator on bit-vectors of the width. -/
theorem operators_are_smtlib {a b : Nat} (hw : WordWidth width) (ha : a < 2 ^ width)
    (hb : b < 2 ^ width) :
    (∀ op : ArithOp, op.apply width a b < 2 ^ width ∧
      Checked.arith op width a b = some (op.apply width a b) ∧
      op.apply width a b = (op.onVectors (.ofNat width a) (.ofNat width b)).toNat) ∧
    (∀ op : UnaryOp, op.apply width a < 2 ^ width ∧
      Checked.unary op width a = some (op.apply width a) ∧
      op.apply width a = (op.onVector (.ofNat width a)).toNat) ∧
    ∀ op : CompareOp, Checked.compare op width a b = some (op.holds width a b) ∧
      op.holds width a b = op.onVectors (.ofNat width a) (.ofNat width b) := by
  have hx : (BitVec.ofNat width a).toNat = a := Nat.mod_eq_of_lt ha
  have hy : (BitVec.ofNat width b).toNat = b := Nat.mod_eq_of_lt hb
  refine ⟨fun op => ?_, fun op => ?_, fun op => ?_⟩
  · have happly := op.apply_eq_onVectors hw (.ofNat width a) (.ofNat width b)
    rw [hx, hy] at happly
    exact ⟨happly ▸ BitVec.isLt _, Checked.arith_eq hw a b op, happly⟩
  · have happly := op.apply_eq_onVector hw (.ofNat width a)
    rw [hx] at happly
    exact ⟨happly ▸ BitVec.isLt _, Checked.unary_eq hw.2 op a, happly⟩
  · have hholds := op.holds_eq_onVectors hw (.ofNat width a) (.ofNat width b)
    rw [hx, hy] at hholds
    exact ⟨Checked.compare_eq hw a b op, hholds⟩

/-- The least signed word of 128 bits divided by minus one, and turned by 129 places. -/
theorem operators_are_smtlib_least :
    Checked.arith .sdiv 128 (2 ^ 127) (2 ^ 128 - 1) = some (2 ^ 127) ∧
    Checked.arith .rol 128 (2 ^ 127) 129 = some 1 := by
  have hw : WordWidth 128 := by decide
  have hquotient := (operators_are_smtlib hw (a := 2 ^ 127) (b := 2 ^ 128 - 1) (by decide)
    (by decide)).1 .sdiv
  have hturn := (operators_are_smtlib hw (a := 2 ^ 127) (b := 129) (by decide) (by decide)).1 .rol
  rw [hquotient.2.1, hturn.2.1]
  exact ⟨congrArg some (by decide +kernel), congrArg some (by decide +kernel)⟩

end Concolic
