import Mathlib.Data.Int.ModEq
import Mathlib.Data.Nat.Bitwise
import Mathlib.Tactic.Ring
import Concolic.Formula.Operator

/-
  Laws of machine words.

  Every operation returns a word of its width, and the operations satisfy the
  laws that let a formula be rewritten without a change of meaning: the neutral
  and the absorbing operands, the commutative and associative operators, an
  operator applied twice, and the ways in which a part of a word is a part of
  what the word was put together from.
-/

namespace Concolic

open Word

variable {a b high low source value width count middle top x : Nat} {op : ArithOp}
  {g : Bool → Bool → Bool} {f : Nat → Nat → Nat}

namespace Word

/-! Words and their range. -/

theorem modulus_eq (h : width ≤ limit) : modulus width = 2 ^ width := by
  show 2 ^ min width limit = 2 ^ width
  rw [min_eq_left h]

theorem modulus_pos (width : Nat) : 0 < modulus width := Nat.two_pow_pos _

theorem truncate_lt (width value : Nat) : truncate width value < modulus width :=
  Nat.mod_lt _ (modulus_pos width)

theorem truncate_of_lt (h : value < modulus width) :
    truncate width value = value := Nat.mod_eq_of_lt h

theorem ones_lt (width : Nat) : ones width < modulus width := by
  have := modulus_pos width
  simp only [ones]
  omega

theorem wrap_cast (width : Nat) (value : Int) :
    (wrap width value : Int) = value % (modulus width : Int) := by
  have : 0 < (modulus width : Int) := by exact_mod_cast modulus_pos width
  exact Int.toNat_of_nonneg (Int.emod_nonneg _ (by omega))

theorem wrap_lt (width : Nat) (value : Int) : wrap width value < modulus width := by
  have hpos : 0 < (modulus width : Int) := by exact_mod_cast modulus_pos width
  have hlt := Int.emod_lt_of_pos value hpos
  rw [← wrap_cast] at hlt
  exact_mod_cast hlt

theorem wrap_natCast (width value : Nat) : wrap width (value : Int) = truncate width value := by
  have h := wrap_cast width (value : Int)
  exact_mod_cast h

/-- A wrapped integer is the word congruent to it. -/
theorem wrap_eq_iff {a b : Int} :
    wrap width a = wrap width b ↔ a % (modulus width : Int) = b % (modulus width : Int) := by
  rw [← wrap_cast, ← wrap_cast]
  exact Int.ofNat_inj.symm

/-! The signed reading. -/

/-- The signed reading is congruent to the word. -/
theorem signed_emod (width value : Nat) :
    signed width value % (modulus width : Int) = (value : Int) % (modulus width : Int) := by
  by_cases h : 2 * truncate width value < modulus width
  · simp only [signed, h]
    simp [truncate]
  · simp only [signed, h]
    simp [truncate]

/-- The signed reading of `width` bits lies in the signed range. -/
theorem signed_range (width value : Nat) :
    -(modulus width : Int) ≤ 2 * signed width value ∧ 2 * signed width value < modulus width := by
  have hlt := truncate_lt width value
  simp only [signed]
  split <;> omega

/-- An integer of the signed range is the signed reading of its word. -/
theorem signed_wrap {value : Int} (hlo : -(modulus width : Int) ≤ 2 * value)
    (hhi : 2 * value < modulus width) : signed width (wrap width value) = value := by
  have hlt := wrap_lt width value
  have hcast := wrap_cast width value
  rw [signed, truncate_of_lt hlt]
  -- a negative integer wraps to the upper half of the words, any other to the lower
  rcases Int.lt_or_le value 0 with hneg | hpos
  · have hmod : value % (modulus width : Int) = value + modulus width := by
      rw [← Int.add_emod_right]
      exact Int.emod_eq_of_lt (by omega) (by omega)
    omega
  · have hmod : value % (modulus width : Int) = value := Int.emod_eq_of_lt hpos (by omega)
    omega

theorem wrap_signed (width value : Nat) :
    wrap width (signed width value) = truncate width value := by
  rw [← wrap_natCast, wrap_eq_iff]
  exact signed_emod width value

theorem signExtend_lt (source width value : Nat) : signExtend source width value < modulus width :=
  wrap_lt _ _

theorem modulus_mono (h : a ≤ b) : modulus a ≤ modulus b :=
  Nat.pow_le_pow_right (by omega) (by omega)

/-- Extension by the sign keeps the signed reading. -/
theorem signed_signExtend (h : source ≤ width) (value : Nat) :
    signed width (signExtend source width value) = signed source value := by
  have hle : (modulus source : Int) ≤ modulus width := by exact_mod_cast modulus_mono h
  have hr := signed_range source value
  exact signed_wrap (by omega) (by omega)

theorem signExtend_self (width value : Nat) :
    signExtend width width value = truncate width value := wrap_signed width value

theorem signExtend_signExtend {source : Nat} (h : source ≤ middle) (width value : Nat) :
    signExtend middle width (signExtend source middle value) = signExtend source width value := by
  show wrap width (signed middle (signExtend source middle value)) = _
  rw [signed_signExtend h]
  rfl

/-! Every operation returns a word of its width. -/

theorem rotate_lt (width a amount : Nat) : rotate width a amount < modulus width := by
  simp only [rotate]
  split
  · exact truncate_lt _ _
  · exact truncate_lt _ _

/-! Neutral and absorbing operands. -/

section Identities

variable {width a : Nat}

theorem add_zero (h : a < modulus width) : add width a 0 = a := truncate_of_lt h

theorem sub_zero (h : a < modulus width) : sub width a 0 = a := by
  exact truncate_of_lt h

theorem sub_self (width a : Nat) : sub width a a = 0 := by
  simp [sub, wrap]

theorem mul_zero (width a : Nat) : mul width a 0 = 0 := by simp [mul, truncate]

theorem mul_one (h : a < modulus width) : mul width a 1 = a := by
  simp only [mul, Nat.mul_one]
  exact truncate_of_lt h

theorem and_zero (width a : Nat) : and width a 0 = 0 := by simp [and, truncate]

section

variable (h : a < modulus width)

include h

theorem and_self : and width a a = a := by
  simp only [and, Nat.and_self]
  exact truncate_of_lt h

theorem and_ones : and width a (ones width) = a := by
  have hm : a &&& (2 ^ min width limit - 1) = a % 2 ^ min width limit :=
    Nat.and_two_pow_sub_one_eq_mod a _
  show truncate width (a &&& (2 ^ min width limit - 1)) = a
  rw [hm]
  show truncate width (truncate width a) = a
  rw [truncate_of_lt h, truncate_of_lt h]

theorem or_zero : or width a 0 = a := by
  simp only [or, Nat.or_zero]
  exact truncate_of_lt h

theorem or_self : or width a a = a := by
  simp only [or, Nat.or_self]
  exact truncate_of_lt h

theorem or_ones : or width a (ones width) = ones width := by
  have hor : a ||| (2 ^ min width limit - 1) = 2 ^ min width limit - 1 := by
    apply Nat.eq_of_testBit_eq
    intro i
    by_cases hi : i < min width limit
    · simp [hi]
    · have hle : 2 ^ min width limit ≤ 2 ^ i := Nat.pow_le_pow_right (by omega) (by omega)
      have ha : a < 2 ^ i := lt_of_lt_of_le h hle
      simp [Nat.testBit_lt_two_pow ha]
  show truncate width (a ||| (2 ^ min width limit - 1)) = ones width
  rw [hor]
  exact truncate_of_lt (ones_lt width)

theorem xor_zero : xor width a 0 = a := by
  simp only [xor, Nat.xor_zero]
  exact truncate_of_lt h

end

theorem xor_self (width a : Nat) : xor width a a = 0 := by simp [xor, truncate]

theorem udiv_one (h : a < modulus width) : udiv width a 1 = a := by
  simp only [udiv, Nat.div_one]
  exact truncate_of_lt h

theorem urem_one (width a : Nat) : urem width a 1 = 0 := by simp [urem, truncate, Nat.mod_one]

section

variable (hpos : 0 < width)

include hpos

theorem signed_one : signed width 1 = 1 ∨ width = 1 ∧ signed width 1 = -1 := by
  rcases lt_or_ge 1 width with h | h
  · have h4 : 2 ^ 2 ≤ modulus width := Nat.pow_le_pow_right (by omega) (by unfold limit; omega)
    left
    rw [signed, truncate_of_lt (by omega), if_pos (by omega)]
    rfl
  · have : width = 1 := by omega
    subst this
    decide

theorem sdiv_one (h : a < modulus width) : sdiv width a 1 = a := by
  rcases signed_one hpos with h1 | ⟨rfl, _⟩
  · simp only [sdiv, h1, Int.tdiv_one]
    rw [if_neg (by omega), wrap_signed, truncate_of_lt h]
  · -- of a single bit, one is minus one, and its own negation
    have h2 : a < 2 := h
    rcases (show a = 0 ∨ a = 1 by omega) with rfl | rfl
    · decide
    · decide

theorem srem_one (a : Nat) : srem width a 1 = 0 := by
  rcases signed_one hpos with h1 | ⟨rfl, h1⟩
  · simp only [srem, h1]
    simp [wrap]
  · simp only [srem, h1]
    simp [wrap]

theorem shl_zero (h : a < modulus width) : shl width a 0 = a := by
  simp only [shl, Nat.shiftLeft_zero]
  rw [if_neg (by omega), truncate_of_lt h]

theorem lshr_zero (h : a < modulus width) : lshr width a 0 = a := by
  simp only [lshr, Nat.shiftRight_zero]
  rw [if_neg (by omega), truncate_of_lt h]

theorem ashr_zero (h : a < modulus width) : ashr width a 0 = a := by
  simp only [ashr, Int.shiftRight_zero]
  rw [if_neg (by omega), wrap_signed, truncate_of_lt h]

end

section

variable (h : a < modulus width)

include h

theorem rol_of_mod_eq_zero (hc : count % width = 0) : rol width a count = a := by
  simp only [rol, hc]
  exact truncate_of_lt h

theorem ror_of_mod_eq_zero (hc : count % width = 0) : ror width a count = a := by
  simp only [ror, hc, Nat.sub_zero, Nat.mod_self]
  exact truncate_of_lt h

theorem not_not : not width (not width a) = a := by
  have hones : ∀ b, b < modulus width → truncate width (ones width ^^^ b) = ones width ^^^ b := by
    intro b hb
    exact truncate_of_lt (Nat.xor_lt_two_pow (ones_lt width) hb)
  have hin : ones width ^^^ a < modulus width := Nat.xor_lt_two_pow (ones_lt width) h
  simp only [not]
  rw [hones a h, hones _ hin, ← Nat.xor_assoc, Nat.xor_self, Nat.zero_xor]

theorem neg_neg : neg width (neg width a) = a := by
  have hcongr : -(wrap width (-(a : Int)) : Int) ≡ - -(a : Int) [ZMOD modulus width] := by
    rw [wrap_cast]
    exact (Int.mod_modEq _ _).neg
  calc neg width (neg width a) = wrap width (- -(a : Int)) := wrap_eq_iff.mpr hcongr
    _ = a := by rw [Int.neg_neg, wrap_natCast, truncate_of_lt h]

end

end Identities

/-! Parts of words. The bits of a part are told apart one by one. -/

/-- The bits from `low` to `high` of a value. -/
def slice (high low value : Nat) : Nat := truncate (high - low + 1) (value >>> low)

theorem testBit_truncate (h : width ≤ limit) (value i : Nat) :
    (truncate width value).testBit i = (decide (i < width) && value.testBit i) := by
  rw [truncate, modulus_eq h, Nat.testBit_mod_two_pow]

theorem testBit_slice (h : high - low + 1 ≤ limit) (value i : Nat) :
    (slice high low value).testBit i =
      (decide (i < high - low + 1) && value.testBit (low + i)) := by
  rw [slice, testBit_truncate h, Nat.testBit_shiftRight]

/-- A part of the complement of a word rests on that part of the word. -/
theorem slice_not_congr (hw : width ≤ limit) (hle : low ≤ high) (hhigh : high < width)
    (h : slice high low a = slice high low b) :
    slice high low (not width a) = slice high low (not width b) := by
  have hlen : high - low + 1 ≤ limit := by omega
  apply Nat.eq_of_testBit_eq
  intro i
  have hi := congrArg (Nat.testBit · i) h
  simp only [testBit_slice hlen] at hi
  simp only [testBit_slice hlen, not, testBit_truncate hw, Nat.testBit_xor]
  by_cases hin : i < high - low + 1
  · simp only [hin, decide_true, Bool.true_and] at hi ⊢
    rw [hi]
  · simp only [hin, decide_false, Bool.false_and]

theorem slice_lt (high low value : Nat) : slice high low value < modulus (high - low + 1) :=
  truncate_lt _ _

theorem slice_ext {a high' low' : Nat} (hlength : high - low = high' - low')
    (hlim : high - low < limit)
    (h : ∀ i, i ≤ high - low → a.testBit (low + i) = b.testBit (low' + i)) :
    slice high low a = slice high' low' b := by
  apply Nat.eq_of_testBit_eq
  intro i
  rw [testBit_slice hlim, testBit_slice (by omega), ← hlength]
  by_cases hi : i < high - low + 1
  · rw [h i (by omega)]
  · simp [hi]

theorem slice_zero (h : value < modulus (high + 1)) : slice high 0 value = value := truncate_of_lt h

theorem testBit_of_lt {i : Nat} (hw : width ≤ limit) (h : value < modulus width) (hi : width ≤ i) :
    value.testBit i = false := by
  rw [modulus_eq hw] at h
  exact Nat.testBit_lt_two_pow (lt_of_lt_of_le h (Nat.pow_le_pow_right (by omega) hi))

/-- The widest word has the bits of every word. -/
theorem modulus_le_limit (width : Nat) : modulus width ≤ modulus limit :=
  Nat.pow_le_pow_right (by omega) (by omega)

theorem slice_slice {base : Nat} (hle : low ≤ high) (hin : high < top - base + 1)
    (hvalue : value < modulus limit) :
    slice high low (slice top base value) = slice (base + high) (base + low) value := by
  by_cases hwide : top - base + 1 ≤ limit
  · refine slice_ext (by omega) (by omega) fun i hi => ?_
    rw [testBit_slice hwide, add_assoc]
    simp [show low + i < top - base + 1 by omega]
  · -- a part wider than the widest word has all the bits above its base
    have hmod : modulus (top - base + 1) = modulus limit := by
      unfold modulus
      rw [min_eq_right (by omega), min_self]
    have hshift : value >>> base < modulus (top - base + 1) := by
      rw [hmod]
      exact lt_of_le_of_lt (Nat.shiftRight_le value base) hvalue
    have hinner : slice top base value = value >>> base := truncate_of_lt hshift
    rw [hinner, slice, slice, ← Nat.shiftRight_add, show base + high - (base + low) = high - low by
      omega]

/-- One word of `width` bits below another. -/
def join (width high low : Nat) : Nat := (high <<< width) ||| low

theorem testBit_join (hw : width ≤ limit) (h : low < modulus width) (high i : Nat) :
    (join width high low).testBit i =
      if i < width then low.testBit i else high.testBit (i - width) := by
  rw [join, Nat.testBit_or, Nat.testBit_shiftLeft]
  by_cases hi : i < width
  · simp [show ¬ width ≤ i by omega]
  · have hlow : low.testBit i = false := testBit_of_lt hw h (by omega)
    simp [show width ≤ i by omega, hlow]

theorem join_lt {upper : Nat} (hlim : upper + width ≤ limit) (hhigh : high < modulus upper)
    (hlow : low < modulus width) : join width high low < modulus (upper + width) := by
  rw [modulus_eq (by omega)] at hhigh hlow ⊢
  have hshift : high <<< width < 2 ^ (upper + width) := by
    rw [Nat.shiftLeft_eq, pow_add]
    exact mul_lt_mul_of_pos_right hhigh (Nat.two_pow_pos _)
  have hle : 2 ^ width ≤ 2 ^ (upper + width) := Nat.pow_le_pow_right (by omega) (by omega)
  exact Nat.or_lt_two_pow hshift (by omega)

theorem join_zero (width low : Nat) : join width 0 low = low := by simp [join]

theorem slice_join_low (a : Nat) (hle : low ≤ high) (hin : high < width) (hw : width ≤ limit)
    (hb : b < modulus width) : slice high low (join width a b) = slice high low b := by
  refine slice_ext rfl (by omega) fun i hi => ?_
  rw [testBit_join hw hb, if_pos (by omega)]

theorem slice_join_high (a : Nat) (hle : low ≤ high) (hin : width ≤ low) (hlim : high < limit)
    (hw : width ≤ limit) (hb : b < modulus width) :
    slice high low (join width a b) = slice (high - width) (low - width) a := by
  refine slice_ext (by omega) (by omega) fun i _ => ?_
  rw [testBit_join hw hb, if_neg (by omega), show low - width + i = low + i - width by omega]

/-- Adjacent parts make up one part. -/
theorem join_slice_slice {bottom : Nat} (value : Nat) (hlo : bottom ≤ middle) (hhi : middle < top)
    (hlim : top - bottom < limit) :
    join (middle - bottom + 1) (slice top (middle + 1) value) (slice middle bottom value) =
      slice top bottom value := by
  apply Nat.eq_of_testBit_eq
  intro i
  rw [testBit_join (by omega) (slice_lt _ _ _), testBit_slice (by omega), testBit_slice (by omega),
    testBit_slice (by omega)]
  by_cases hi : i < middle - bottom + 1
  · simp [hi, show i < top - bottom + 1 by omega]
  · rw [if_neg hi, show middle + 1 + (i - (middle - bottom + 1)) = bottom + i by omega]
    by_cases ht : i < top - bottom + 1
    · simp [ht, show i - (middle - bottom + 1) < top - (middle + 1) + 1 by omega]
    · simp [ht, show ¬ i - (middle - bottom + 1) < top - (middle + 1) + 1 by omega]

theorem slice_eq_zero (hin : width ≤ low) (hlim : high - low < limit) (hw : width ≤ limit)
    (hv : value < modulus width) : slice high low value = 0 := by
  apply Nat.eq_of_testBit_eq
  intro i
  rw [testBit_slice (by omega), testBit_of_lt hw hv (by omega)]
  simp

/-- Extension by the sign keeps the bits of the word. -/
theorem signExtend_mod (h : source ≤ width) (value : Nat) :
    signExtend source width value % modulus source = value % modulus source := by
  have hdvd : (modulus source : Int) ∣ modulus width := by
    exact_mod_cast pow_dvd_pow 2 (by omega)
  have hcast : (signExtend source width value : Int) % modulus source =
      (value : Int) % modulus source := by
    rw [signExtend, wrap_cast, Int.emod_emod_of_dvd _ hdvd]
    exact signed_emod source value
  exact_mod_cast hcast

theorem slice_congr (hle : low ≤ high) (hin : high < width) (hw : width ≤ limit)
    (h : a % modulus width = b % modulus width) : slice high low a = slice high low b := by
  refine slice_ext rfl (by omega) fun i hi => ?_
  have hbit := congrArg (fun n => n.testBit (low + i)) h
  simpa only [modulus_eq hw, Nat.testBit_mod_two_pow, show low + i < width by omega,
    decide_true, Bool.true_and] using hbit

theorem slice_signExtend (value : Nat) (hle : low ≤ high) (hin : high < source)
    (hs : source ≤ width) (hw : source ≤ limit) :
    slice high low (signExtend source width value) = slice high low value :=
  slice_congr hle hin hw (signExtend_mod hs value)

end Word

theorem ArithOp.apply_lt (op : ArithOp) (width a b : Nat) : op.apply width a b < modulus width := by
  have hpos := modulus_pos width
  cases op with
  | add | mul | and | or | xor => exact truncate_lt _ _
  | sub => exact wrap_lt _ _
  | udiv =>
    simp only [apply, Word.udiv]
    split
    · exact ones_lt _
    · exact truncate_lt _ _
  | urem =>
    simp only [apply, Word.urem]
    split <;> exact truncate_lt _ _
  | sdiv =>
    simp only [apply, Word.sdiv]
    split
    · exact truncate_lt _ _
    · exact wrap_lt _ _
  | srem =>
    simp only [apply, Word.srem]
    split
    · exact truncate_lt _ _
    · exact wrap_lt _ _
  | shl | lshr =>
    simp only [apply, Word.shl, Word.lshr]
    split
    · exact hpos
    · exact truncate_lt _ _
  | ashr =>
    simp only [apply, Word.ashr]
    split
    · split
      · exact ones_lt _
      · exact hpos
    · exact wrap_lt _ _
  | rol | ror => exact rotate_lt _ _ _

theorem UnaryOp.apply_lt (op : UnaryOp) (width a : Nat) : op.apply width a < modulus width := by
  cases op with
  | not => exact truncate_lt _ _
  | neg => exact wrap_lt _ _

/-- A unary operator undoes itself. -/
theorem UnaryOp.apply_apply (op : UnaryOp) (h : a < modulus width) :
    op.apply width (op.apply width a) = a := by
  cases op with
  | not => exact not_not h
  | neg => exact neg_neg h

namespace ArithOp

/-! The operators whose operands may be exchanged. -/

theorem apply_comm (h : op.commutative = true) (width a b : Nat) :
    op.apply width a b = op.apply width b a := by
  cases op <;> simp only [commutative, Bool.false_eq_true] at h
  · simp only [apply, Word.add, add_comm]
  · simp only [apply, Word.mul, mul_comm]
  · simp only [apply, Word.and, Nat.and_comm]
  · simp only [apply, Word.or, Nat.or_comm]
  · simp only [apply, Word.xor, Nat.xor_comm]

/-- A bitwise operation may be cut to a width before or after. -/
theorem truncate_bitwise (hf : ∀ a b i, (f a b).testBit i = g (a.testBit i) (b.testBit i))
    (width a b : Nat) :
    truncate width (f (truncate width a) (truncate width b)) = truncate width (f a b) := by
  apply Nat.eq_of_testBit_eq
  intro i
  simp only [truncate, modulus]
  by_cases hi : i < min width limit
  · simp [hf, hi]
  · simp [hi]

theorem truncate_bitwise_assoc (hf : ∀ a b i, (f a b).testBit i = g (a.testBit i) (b.testBit i))
    (hassoc : ∀ a b c, f (f a b) c = f a (f b c)) (a : Nat) (hx : x < modulus width)
    (hb : b < modulus width) :
    truncate width (f (truncate width (f x a)) b) =
      truncate width (f x (truncate width (f a b))) := by
  calc truncate width (f (truncate width (f x a)) b)
      = truncate width (f (truncate width (f x a)) (truncate width b)) := by
        rw [truncate_of_lt hb]
    _ = truncate width (f x (f a b)) := by rw [truncate_bitwise hf, hassoc]
    _ = truncate width (f (truncate width x) (truncate width (f a b))) :=
        (truncate_bitwise hf width x (f a b)).symm
    _ = truncate width (f x (truncate width (f a b))) := by rw [truncate_of_lt hx]

theorem apply_assoc (h : op.commutative = true) (a : Nat) (hx : x < modulus width)
    (hb : b < modulus width) :
    op.apply width (op.apply width x a) b = op.apply width x (op.apply width a b) := by
  cases op <;> simp only [commutative, Bool.false_eq_true] at h
  · simp only [apply, Word.add, truncate, Nat.mod_add_mod, Nat.add_mod_mod, add_assoc]
  · simp only [apply, Word.mul, truncate, Nat.mod_mul_mod, Nat.mul_mod_mod, mul_assoc]
  · exact truncate_bitwise_assoc (f := (· &&& ·)) Nat.testBit_and Nat.and_assoc a hx hb
  · exact truncate_bitwise_assoc (f := (· ||| ·)) Nat.testBit_or Nat.or_assoc a hx hb
  · exact truncate_bitwise_assoc (f := (· ^^^ ·)) Nat.testBit_xor Nat.xor_assoc a hx hb

end ArithOp

end Concolic
