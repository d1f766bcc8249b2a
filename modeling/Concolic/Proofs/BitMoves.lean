import Concolic.Proofs.Carry
import Concolic.Proofs.Smt.Theory
import Concolic.X86.Shift

/-
  Shifts and rotations, one place at a time.

  A word moves by one place: a bit leaves it at one end and a bit comes in at the other.
  A shift or rotation by a count is that many moves (`X86.Motion.iterate_step`), whatever
  the count. The last bit to leave is found without the moves: it is the lowest of another
  shift (`X86.Shift.testBit_lastWord`), or stands at one end of the rotated word
  (`X86.Motion.out_rotate`). Whether one place changes the sign is seen in two bits.
-/

namespace Concolic

open Word

namespace Word

/-- The word moved to the left by one place, with a bit that comes in. -/
def moveLeft (width a : Nat) (into : Bool) : Nat := truncate width (2 * a + into.toNat)

def moveRight (width a : Nat) (into : Bool) : Nat := a / 2 + into.toNat * 2 ^ (width - 1)

theorem ext_testBit {width a b : Nat} (hw : width ≤ limit) (ha : a < modulus width)
    (hb : b < modulus width) (h : ∀ i < width, a.testBit i = b.testBit i) : a = b := by
  apply Nat.eq_of_testBit_eq
  intro i
  by_cases hi : i < width
  · exact h i hi
  · rw [testBit_of_lt hw ha (Nat.le_of_not_lt hi), testBit_of_lt hw hb (Nat.le_of_not_lt hi)]

section

variable {width a n i : Nat} (hw : width ≤ limit)

theorem moveLeft_lt (into : Bool) : moveLeft width a into < modulus width := truncate_lt _ _

include hw

theorem testBit_moveLeft (into : Bool) (hi : i < width) :
    (moveLeft width a into).testBit i = if i = 0 then into else a.testBit (i - 1) := by
  rw [moveLeft, testBit_truncate hw, decide_eq_true hi, Bool.true_and]
  have hlow : (2 * a + into.toNat) % 2 = into.toNat := by
    have := Bool.toNat_lt into
    omega
  have hhigh : (2 * a + into.toNat) / 2 = a := by
    omega
  cases i with
  | zero =>
    rw [if_pos rfl, Nat.testBit_zero, hlow]
    cases into <;> rfl
  | succ i => rw [if_neg (Nat.succ_ne_zero i), Nat.testBit_succ, hhigh, Nat.add_sub_cancel]

variable (ha : a < modulus width)

include ha

theorem moveRight_lt (hpos : 1 ≤ width) (into : Bool) : moveRight width a into < modulus width := by
  have hhalf : 2 ^ (width - 1) * 2 = 2 ^ width := Nat.two_pow_pred_mul_two hpos
  rw [modulus_eq hw] at ha ⊢
  have hinto : into.toNat * 2 ^ (width - 1) ≤ 1 * 2 ^ (width - 1) :=
    Nat.mul_le_mul_right _ (Bool.toNat_le into)
  unfold moveRight
  omega

theorem testBit_moveRight (hpos : 1 ≤ width) (into : Bool) (i : Nat) :
    (moveRight width a into).testBit i = if i = width - 1 then into else a.testBit (i + 1) := by
  have hhalf : 2 ^ (width - 1) * 2 = 2 ^ width := Nat.two_pow_pred_mul_two hpos
  have hlow : a / 2 < 2 ^ (width - 1) := by
    rw [modulus_eq hw] at ha
    omega
  have hjoin : moveRight width a into = into.toNat <<< (width - 1) ||| a / 2 := by
    rw [← Nat.shiftLeft_add_eq_or_of_lt hlow, Nat.shiftLeft_eq, moveRight, add_comm]
  rw [hjoin, Nat.testBit_or, Nat.testBit_shiftLeft, Nat.testBit_div_two]
  by_cases htop : i = width - 1
  · rw [if_pos htop, testBit_of_lt hw ha (by omega), Bool.or_false, htop, Nat.sub_self]
    cases into <;> simp
  · rw [if_neg htop]
    by_cases habove : width - 1 ≤ i
    · -- above the top there is nothing in either part
      obtain ⟨k, hk⟩ : ∃ k, i - (width - 1) = k + 1 := ⟨i - width, by omega⟩
      rw [hk, Nat.testBit_succ, Nat.div_eq_of_lt (Bool.toNat_lt into), Nat.zero_testBit,
        Bool.and_false, Bool.false_or]
    · rw [decide_eq_false (by omega), Bool.false_and, Bool.false_or]

/-! The bits of a shifted or rotated word. -/

omit ha in
theorem testBit_shl (hi : i < width) :
    (shl width a n).testBit i = (decide (n ≤ i) && a.testBit (i - n)) := by
  unfold shl
  split
  · next hge => rw [Nat.zero_testBit, decide_eq_false (by omega), Bool.false_and]
  · rw [testBit_truncate hw, decide_eq_true hi, Bool.true_and, Nat.testBit_shiftLeft]

theorem testBit_lshr : (lshr width a n).testBit i = a.testBit (n + i) := by
  unfold lshr
  split
  · next hge => rw [Nat.zero_testBit, testBit_of_lt hw ha (by omega)]
  · rw [testBit_truncate hw, Nat.testBit_shiftRight]
    by_cases hi : i < width
    · rw [decide_eq_true hi, Bool.true_and]
    · rw [decide_eq_false hi, Bool.false_and, testBit_of_lt hw ha (by omega)]

theorem eq_toNat : ∃ x : BitVec width, a = x.toNat := by
  rw [modulus_eq hw] at ha
  exact ⟨BitVec.ofNat width a, (BitVec.toNat_ofNat a width).symm ▸ (Nat.mod_eq_of_lt ha).symm⟩

theorem testBit_ashr (hi : i < width) :
    (ashr width a n).testBit i =
      if n + i < width then a.testBit (n + i) else a.testBit (width - 1) := by
  obtain ⟨x, rfl⟩ := eq_toNat hw ha
  rw [ashr_eq hw, BitVec.testBit_toNat, BitVec.getLsbD_sshiftRight, decide_eq_false (by omega),
    Bool.not_false, Bool.true_and, BitVec.msb_eq_getLsbD_last, BitVec.testBit_toNat,
    BitVec.testBit_toNat]

theorem testBit_rotate (hn : n < width) (hi : i < width) :
    (rotate width a n).testBit i =
      if i < n then a.testBit (i + width - n) else a.testBit (i - n) := by
  obtain ⟨x, rfl⟩ := eq_toNat hw ha
  rw [rotate_eq hw x hn, BitVec.testBit_toNat, BitVec.getLsbD_or, BitVec.getLsbD_shiftLeft,
    BitVec.getLsbD_ushiftRight, decide_eq_true hi, Bool.true_and, BitVec.testBit_toNat,
    BitVec.testBit_toNat]
  by_cases hlow : i < n
  · rw [if_pos hlow, decide_eq_true hlow, Bool.not_true, Bool.false_and, Bool.false_or]
    congr 1
    omega
  · rw [if_neg hlow, decide_eq_false hlow, Bool.not_false, Bool.true_and,
      BitVec.getLsbD_of_ge _ _ (by omega : width ≤ width - n + i), Bool.or_false]

omit hw ha in
theorem succ_mod (hpos : 1 ≤ width) (n : Nat) :
    (n + 1) % width = if n % width + 1 = width then 0 else n % width + 1 := by
  have hlt := Nat.mod_lt n hpos
  rw [← Nat.mod_add_mod]
  split
  · next h => rw [h, Nat.mod_self]
  · exact Nat.mod_eq_of_lt (by omega)

/-- A rotation by one place more, to the left. -/
theorem rol_succ (hpos : 1 ≤ width) (n : Nat) :
    rol width a (n + 1) = moveLeft width (rol width a n) ((rol width a n).testBit (width - 1)) := by
  have hn := Nat.mod_lt n hpos
  refine ext_testBit hw (rotate_lt _ _ _) (moveLeft_lt _) fun i hi => ?_
  rw [testBit_moveLeft hw _ hi, rol, rol, testBit_rotate hw ha (Nat.mod_lt _ hpos) hi,
    testBit_rotate hw ha hn (by omega), testBit_rotate hw ha hn (by omega), succ_mod hpos]
  -- the place that a bit comes from is the same, whether or not the count goes around
  split <;> split <;> split <;> (try split) <;> first | omega | (congr 1; omega)

theorem testBit_ror (hpos : 1 ≤ width) (n : Nat) (hi : i < width) :
    (ror width a n).testBit i = if i + n % width < width then a.testBit (i + n % width)
      else a.testBit (i + n % width - width) := by
  have hn := Nat.mod_lt n hpos
  rw [ror, testBit_rotate hw ha (Nat.mod_lt _ hpos) hi]
  by_cases hzero : n % width = 0
  · rw [hzero, Nat.sub_zero, Nat.mod_self, if_neg (Nat.not_lt_zero _), Nat.sub_zero,
      Nat.add_zero, if_pos hi]
  · rw [Nat.mod_eq_of_lt (by omega)]
    split <;> split <;> first | omega | (congr 1; omega)

theorem ror_succ (hpos : 1 ≤ width) (n : Nat) :
    ror width a (n + 1) = moveRight width (ror width a n) ((ror width a n).testBit 0) := by
  have hn := Nat.mod_lt n hpos
  have hlt : ∀ n, ror width a n < modulus width := fun _ => rotate_lt _ _ _
  refine ext_testBit hw (hlt _) (moveRight_lt hw (hlt n) hpos _) fun i hi => ?_
  rw [testBit_moveRight hw (hlt n) hpos, testBit_ror hw ha hpos (n + 1) hi,
    testBit_ror hw ha hpos n (by omega), succ_mod hpos]
  by_cases htop : i = width - 1
  · rw [if_pos htop]
    split <;> split <;> split <;> first | omega | (congr 1; omega)
  · rw [if_neg htop, testBit_ror hw ha hpos n (by omega)]
    split <;> split <;> split <;> first | omega | (congr 1; omega)

end

end Word

namespace X86

/-- The operations that move the bits of a word. -/
inductive Motion where
  | shift (kind : Shift)
  | rotate (left : Bool)
  deriving DecidableEq

namespace Motion

def arith : Motion → ArithOp
  | shift kind => kind.op
  | rotate left => if left then .rol else .ror

def toLeft : Motion → Bool
  | shift kind => kind == .left
  | rotate left => left

/-- The bit that leaves the word with the next move. -/
def out (kind : Motion) (width a : Nat) : Bool :=
  if kind.toLeft then a.testBit (width - 1) else a.testBit 0

/-- The bit that comes in: none, a copy of the sign, or the one that leaves. -/
def into (width a : Nat) : Motion → Bool
  | shift .arithmeticRight => a.testBit (width - 1)
  | shift _ => false
  | rotate left => (rotate left).out width a

def move (kind : Motion) (width a : Nat) : Nat :=
  if kind.toLeft then Word.moveLeft width a (kind.into width a)
  else Word.moveRight width a (kind.into width a)

/-- One place: the word moves, and the bit that leaves it goes to the carry. -/
def step (kind : Motion) (width : Nat) (state : Nat × Bool) : Nat × Bool :=
  (kind.move width state.1, kind.out width state.1)

/-- Whether a move by one place changes the sign. -/
def changesSign (kind : Motion) (width a : Nat) : Bool :=
  a.testBit (width - 1) ^^ (kind.move width a).testBit (width - 1)

section

variable {width a : Nat} (hpos : 1 ≤ width) (hw : width ≤ Word.limit) (ha : a < Word.modulus width)

include hpos hw ha

theorem move_lt (kind : Motion) : kind.move width a < modulus width := by
  unfold move
  split
  · exact moveLeft_lt _
  · exact moveRight_lt hw ha hpos _

omit hpos in
theorem apply_zero (kind : Motion) : kind.arith.apply width a 0 = a := by
  have hmod : 0 % width = 0 := Nat.zero_mod width
  have hrotate : Word.rotate width a 0 = a := (if_pos rfl).trans (truncate_of_lt ha)
  cases kind with
  | shift kind =>
    refine ext_testBit hw (ArithOp.apply_lt _ _ _ _) ha fun i hi => ?_
    cases kind with
    | left => exact (testBit_shl hw hi).trans (by simp)
    | logicalRight => exact (testBit_lshr hw ha).trans (by rw [Nat.zero_add])
    | arithmeticRight =>
      exact (testBit_ashr hw ha hi).trans (by rw [Nat.zero_add, if_pos hi])
  | rotate left =>
    cases left with
    | true =>
      show Word.rotate width a (0 % width) = a
      rw [hmod, hrotate]
    | false =>
      show Word.rotate width a ((width - 0 % width) % width) = a
      rw [hmod, Nat.sub_zero, Nat.mod_self, hrotate]

theorem apply_succ (kind : Motion) (n : Nat) :
    kind.arith.apply width a (n + 1) = kind.move width (kind.arith.apply width a n) := by
  have hlt : ∀ n, kind.arith.apply width a n < modulus width := ArithOp.apply_lt _ _ _
  cases kind with
  | rotate left =>
    cases left with
    | true => exact rol_succ hw ha hpos n
    | false => exact ror_succ hw ha hpos n
  | shift kind =>
    refine ext_testBit hw (hlt _) (move_lt hpos hw (hlt n) _) fun i hi => ?_
    cases kind with
    | left =>
      refine (testBit_shl hw hi).trans (.symm ((testBit_moveLeft hw _ hi).trans ?_))
      split
      · next hzero => rw [decide_eq_false (by omega), Bool.false_and]; rfl
      · refine (testBit_shl hw (by omega)).trans ?_
        rw [show i - (n + 1) = i - 1 - n by omega,
          decide_eq_decide.2 (by omega : n ≤ i - 1 ↔ n + 1 ≤ i)]
    | logicalRight =>
      refine (testBit_lshr hw ha).trans (.symm ((testBit_moveRight hw (hlt n) hpos _ i).trans ?_))
      split
      · next htop => exact (testBit_of_lt hw ha (by omega)).symm
      · exact (testBit_lshr hw ha).trans (by rw [add_assoc, add_comm 1 i])
    | arithmeticRight =>
      -- the copies of the sign that came in so far end with the sign
      have hsign : (ashr width a n).testBit (width - 1) = a.testBit (width - 1) := by
        rw [testBit_ashr hw ha (by omega)]
        split
        · congr 1
          omega
        · rfl
      refine (testBit_ashr hw ha hi).trans
        (.symm ((testBit_moveRight hw (hlt n) hpos _ i).trans ?_))
      split
      · next htop => exact hsign.trans (by rw [if_neg (by omega)])
      · refine (testBit_ashr hw ha (by omega)).trans ?_
        rw [show n + 1 + i = n + (i + 1) by omega]

/-- A shift or rotation is as many moves as its count says, and the carry has the last bit
to leave. -/
theorem iterate_step (kind : Motion) (n : Nat) (carry : Bool) :
    (kind.step width)^[n] (a, carry) = (kind.arith.apply width a n,
      if n = 0 then carry else kind.out width (kind.arith.apply width a (n - 1))) := by
  induction n with
  | zero => rw [Function.iterate_zero_apply, apply_zero hw ha, if_pos rfl]
  | succ n ih =>
    rw [Function.iterate_succ_apply', ih, step, apply_succ hpos hw ha,
      if_neg (Nat.succ_ne_zero n), Nat.add_sub_cancel]

/-- The last bit to leave a rotation is the one that came in last. -/
theorem out_rotate (left : Bool) {n : Nat} (hn : n ≠ 0) :
    (rotate left).out width ((rotate left).arith.apply width a (n - 1)) =
      ((rotate left).arith.apply width a n).testBit (if left then 0 else width - 1) := by
  obtain ⟨n, rfl⟩ := Nat.exists_eq_succ_of_ne_zero hn
  have hlt := ArithOp.apply_lt (rotate left).arith width a n
  rw [Nat.succ_eq_add_one, Nat.add_sub_cancel, apply_succ hpos hw ha]
  cases left with
  | true => exact ((testBit_moveLeft hw _ (by omega)).trans (if_pos rfl)).symm
  | false => exact ((testBit_moveRight hw hlt hpos _ _).trans (if_pos rfl)).symm

/-- Whether a rotation by one place changes the sign, by two bits of its result. -/
theorem changesSign_rotate (hwide : 2 ≤ width) (left : Bool) :
    (rotate left).changesSign width a =
      (((rotate left).arith.apply width a 1).testBit (width - 1) ^^
        ((rotate left).arith.apply width a 1).testBit (if left then 0 else width - 2)) := by
  have hmove : (rotate left).arith.apply width a 1 = (rotate left).move width a := by
    rw [apply_succ hpos hw ha, apply_zero hw ha]
  have hsign : a.testBit (width - 1) =
      ((rotate left).move width a).testBit (if left then 0 else width - 2) := by
    cases left with
    | true => exact ((testBit_moveLeft hw _ (by omega)).trans (if_pos rfl)).symm
    | false =>
      refine ((testBit_moveRight hw ha hpos _ _).trans ?_).symm
      rw [if_neg (by simp only [Bool.false_eq_true, if_false]; omega)]
      congr 1
      simp only [Bool.false_eq_true, if_false]
      omega
  rw [changesSign, hmove, hsign, Bool.xor_comm]

end

end Motion

namespace Shift

/-- The word whose lowest bit is the last to leave. -/
def lastWord (kind : Shift) (width a n : Nat) : Nat :=
  match kind with
  | left => Word.lshr width a (Word.sub width width n)
  | logicalRight => Word.lshr width a (Word.sub width n 1)
  | arithmeticRight => Word.ashr width a (Word.sub width n 1)

/-- The bits that tell whether a shift by one place changes the sign. -/
def signChange (width a : Nat) : Shift → Bool
  | left => a.testBit (width - 1) ^^ a.testBit (width - 2)
  | logicalRight => a.testBit (width - 1)
  | arithmeticRight => false

section

variable {width a : Nat} (hpos : 1 ≤ width) (hw : width ≤ Word.limit) (ha : a < Word.modulus width)

include hpos hw ha

/-- The last bit to leave is found by differences of counts, which may go around. -/
theorem testBit_lastWord (kind : Shift) {n : Nat} (hn : n ≠ 0) (hlt : n < modulus width) :
    (kind.lastWord width a n).testBit 0 =
      (Motion.shift kind).out width (kind.op.apply width a (n - 1)) := by
  have hless : Word.sub width n 1 = n - 1 := by
    rw [Word.sub, ← Int.natCast_sub (Nat.one_le_iff_ne_zero.2 hn), wrap_natCast,
      truncate_of_lt (by omega)]
  cases kind with
  | left =>
    refine (testBit_lshr hw ha).trans (.symm ((testBit_shl hw (by omega)).trans ?_))
    rcases lt_or_ge width n with hgt | hle
    · -- every bit has left, and the difference has gone around
      have hcast : ((Word.sub width width n : Nat) : Int) = (width : Int) - n + modulus width := by
        rw [Word.sub, wrap_cast, ← Int.add_emod_right]
        exact Int.emod_eq_of_lt (by omega) (by omega)
      rw [decide_eq_false (by omega), Bool.false_and, testBit_of_lt hw ha (by omega)]
    · rw [width_sub hw hle, decide_eq_true (by omega), Bool.true_and]
      congr 1
      omega
  | logicalRight =>
    show (lshr width a (Word.sub width n 1)).testBit 0 = (lshr width a (n - 1)).testBit 0
    rw [hless]
  | arithmeticRight =>
    show (ashr width a (Word.sub width n 1)).testBit 0 = (ashr width a (n - 1)).testBit 0
    rw [hless]

theorem changesSign_shift (hwide : 2 ≤ width) (kind : Shift) :
    (Motion.shift kind).changesSign width a = kind.signChange width a := by
  have hright : ∀ into, (moveRight width a into).testBit (width - 1) = into := fun into =>
    (testBit_moveRight hw ha hpos into _).trans (if_pos rfl)
  cases kind with
  | left =>
    refine congrArg (a.testBit (width - 1) ^^ ·) ((testBit_moveLeft hw _ (by omega)).trans ?_)
    rw [if_neg (by omega)]
    rfl
  | logicalRight =>
    exact (congrArg (a.testBit (width - 1) ^^ ·) (hright false)).trans (Bool.xor_false _)
  | arithmeticRight =>
    exact (congrArg (a.testBit (width - 1) ^^ ·) (hright _)).trans (Bool.xor_self _)

end

end Shift

end X86

end Concolic
