import Concolic.Proofs.Registers

/-
  Values computed in integers of 128 bits.

  A machine that values formulas in integers of 128 bits has no result for a shift by
  128 places or more, for a difference of numbers of places below zero, and for a
  remainder by zero. The operations below are the operators of formulas worked out in
  such integers, undefined (`none`) where a step on the way is; bits past the greatest
  width are lost.

  On words of 1 to 128 bits every operator is defined and has its value
  (`arith_eq`, `unary_eq`, `compare_eq`), and so has every well-formed formula under
  values that fit its variables (`Formula.WellFormed.checked_eq`), every part of a
  register (`Register.checkedRead_eq`, `Register.checkedWrite_eq`) and every immediate
  (`Immediate.checkedSized_eq`).
-/

namespace Concolic

open Formula (WordWidth)
open Word

variable {count b width : Nat} {f : Formula} {scope : Scope} {v : Valuation}

namespace Checked

/-! The steps that can be undefined. -/

/-- The difference, if it is not below zero. -/
def less (a b : Nat) : Option Nat := if b ≤ a then some (a - b) else none

def remainder (a b : Nat) : Option Nat := if b = 0 then none else some (a % b)

/-- A shift to the left by fewer than 128 places. -/
def shiftLeft (a count : Nat) : Option Nat :=
  if count < limit then some (truncate limit (a <<< count)) else none

def shiftRight (a count : Nat) : Option Nat :=
  if count < limit then some (a >>> count) else none

def shiftSigned (a : Int) (count : Nat) : Option Int :=
  if count < limit then some (a >>> count) else none

theorem less_of_le {a : Nat} (h : b ≤ a) : less a b = some (a - b) := if_pos h

theorem remainder_of_pos (a : Nat) (h : 0 < b) : remainder a b = some (a % b) :=
  if_neg (pos_iff_ne_zero.1 h)

theorem shiftLeft_of_lt (a : Nat) (h : count < limit) :
    shiftLeft a count = some (truncate limit (a <<< count)) := if_pos h

theorem shiftRight_of_lt (a : Nat) (h : count < limit) :
    shiftRight a count = some (a >>> count) := if_pos h

theorem shiftSigned_of_lt (a : Int) (h : count < limit) :
    shiftSigned a count = some (a >>> count) := if_pos h

/-! Words of a width within the 128 bits. -/

def mask (width : Nat) : Option Nat :=
  if width ≥ limit then some (Word.ones limit)
  else (shiftLeft 1 width).map fun power => Word.sub limit power 1

/-- The signed reading: the top of the word goes to the top of the integer and back. -/
def signed (width value : Nat) : Option Int := do
  let shift ← less limit (min width limit)
  let top ← shiftLeft value shift
  shiftSigned (Word.signed limit top) shift

def topBit (width value : Nat) : Option Bool := do
  let place ← less width 1
  let bits ← shiftRight value place
  return bits &&& 1 != 0

/-- The low bits, taken by a mask. -/
def cut (width value : Nat) : Option Nat := (mask width).map (value &&& ·)

theorem modulus_of_ge (h : limit ≤ width) : modulus width = modulus limit := by
  unfold modulus
  rw [min_eq_right h, min_self]

theorem mask_eq (width : Nat) : mask width = some (ones width) := by
  unfold mask
  split
  · next h => rw [ones, ones, modulus_of_ge h]
  · next h =>
    have hlt : width < limit := by omega
    have hpow : (2 : Nat) ^ width < modulus limit := by
      exact Nat.pow_lt_pow_right (by decide) hlt
    have hpos : 0 < (2 : Nat) ^ width := Nat.two_pow_pos width
    rw [shiftLeft_of_lt 1 hlt, Option.map_some, Nat.one_shiftLeft, truncate_of_lt hpow]
    have hcast : ((2 ^ width : Nat) : Int) - 1 = ((2 ^ width - 1 : Nat) : Int) := by omega
    rw [sub, Nat.cast_one, hcast, wrap_natCast, truncate_of_lt (by omega), ones, modulus_eq hlt.le]

theorem cut_eq (width value : Nat) : cut width value = some (truncate width value) := by
  unfold cut
  rw [mask_eq, Option.map_some]
  congr 1
  exact Nat.and_two_pow_sub_one_eq_mod value _

/-- What is cut to 128 bits first can be cut further. -/
theorem truncate_limit (width value : Nat) :
    truncate width (truncate limit value) = truncate width value :=
  Nat.mod_mod_of_dvd _ (pow_dvd_pow 2 (by
    rw [min_self]
    exact min_le_right _ _))

theorem truncate_wrap (width : Nat) (value : Int) :
    truncate width (wrap limit value) = wrap width value := by
  rw [← wrap_natCast, wrap_eq_iff, wrap_cast]
  refine Int.emod_emod_of_dvd value (Int.natCast_dvd_natCast.2 ?_)
  refine pow_dvd_pow 2 ?_
  exact min_le_right _ _

section

variable {width : Nat} (hw : WordWidth width)

include hw

theorem signed_eq (value : Nat) : signed width value = some (Word.signed width value) := by
  obtain ⟨hpos, hlim⟩ := hw
  have hmin : min width limit = width := min_eq_left hlim
  have hshift : limit - width < limit := by
    omega
  -- the word stands `shift` places higher, with nothing below it
  have hpow : (2 : Nat) ^ limit = 2 ^ width * 2 ^ (limit - width) := by
    rw [← pow_add]
    congr 1
    omega
  have htop : truncate limit (value <<< (limit - width)) =
      truncate width value * 2 ^ (limit - width) := by
    rw [Nat.shiftLeft_eq, truncate, truncate, modulus_eq le_rfl,
      modulus_eq hlim, hpow, Nat.mul_mod_mul_right]
  have hscale : 0 < (2 : Nat) ^ (limit - width) := Nat.two_pow_pos _
  have hread : Word.signed limit (truncate width value * 2 ^ (limit - width)) =
      Word.signed width value * (2 ^ (limit - width) : Nat) := by
    unfold Word.signed
    have hlow : truncate width value < 2 ^ width := modulus_eq hlim ▸ truncate_lt _ _
    have hin : truncate width value * 2 ^ (limit - width) < modulus limit := by
      rw [modulus_eq le_rfl, hpow]
      exact mul_lt_mul_of_pos_right hlow hscale
    rw [truncate_of_lt hin, modulus_eq le_rfl, modulus_eq hlim, hpow]
    simp only [← mul_assoc, Nat.mul_lt_mul_right hscale]
    split
    · push_cast
      rfl
    · push_cast
      ring
  unfold signed
  simp only [hmin, less_of_le hlim, shiftLeft_of_lt _ hshift, shiftSigned_of_lt _ hshift,
    Option.bind_eq_bind, Option.bind_some]
  rw [htop, hread, Int.shiftRight_eq_div_pow]
  congr 1
  exact Int.mul_ediv_cancel _ (by exact_mod_cast hscale.ne')

theorem topBit_eq (value : Nat) : topBit width value = some (Word.topBit width value) := by
  obtain ⟨hpos, hlim⟩ := hw
  have hplace : width - 1 < limit := by omega
  unfold topBit
  simp only [less_of_le hpos, shiftRight_of_lt _ hplace, Option.bind_eq_bind, Option.bind_some]
  rw [Word.topBit, Nat.testBit, Nat.and_comm]
  rfl

end

/-! The operators. -/

/-- A rotation to the left by `amount` places, `amount` below the width. -/
def rotate (width a amount : Nat) : Option Nat :=
  if amount = 0 then some a
  else do
    let high ← shiftLeft a amount
    let rest ← less width amount
    let low ← shiftRight a rest
    return high ||| low

/-- The result of a binary operator before it is cut to its width. -/
def wide (op : ArithOp) (width a b : Nat) : Option Nat := do
  match op with
  | .add => return Word.add limit a b
  | .sub => return Word.sub limit a b
  | .mul => return Word.mul limit a b
  | .udiv => if b = 0 then mask width else return a / b
  | .urem => return if b = 0 then a else a % b
  | .sdiv =>
    let dividend ← signed width a
    let divisor ← signed width b
    if divisor = 0 then
      if dividend < 0 then return 1 else mask width
    else return wrap limit (dividend.tdiv divisor)
  | .srem =>
    let dividend ← signed width a
    let divisor ← signed width b
    return if divisor = 0 then a else wrap limit (dividend.tmod divisor)
  | .and => return a &&& b
  | .or => return a ||| b
  | .xor => return a ^^^ b
  | .shl => if b ≥ width then return 0 else shiftLeft a b
  | .lshr => if b ≥ width then return 0 else shiftRight a b
  | .ashr =>
    if b ≥ width then
      if ← topBit width a then mask width else return 0
    else
      let value ← signed width a
      let shifted ← shiftSigned value b
      return wrap limit shifted
  | .rol =>
    let amount ← remainder b width
    rotate width a amount
  | .ror =>
    let amount ← remainder b width
    let rest ← less width amount
    let back ← remainder rest width
    rotate width a back

def arith (op : ArithOp) (width a b : Nat) : Option Nat := do
  let result ← wide op width a b
  cut width result

def unary (op : UnaryOp) (width a : Nat) : Option Nat :=
  match op with
  | .not => cut width (Word.not limit a)
  | .neg => cut width (Word.neg limit a)

def compare (op : CompareOp) (width a b : Nat) : Option Bool :=
  let signedly (relation : Int → Int → Bool) : Option Bool := do
    let left ← signed width a
    let right ← signed width b
    return relation left right
  match op with
  | .slt => signedly fun x y => decide (x < y)
  | .sle => signedly fun x y => decide (x ≤ y)
  | .sgt => signedly fun x y => decide (x > y)
  | .sge => signedly fun x y => decide (x ≥ y)
  | op => some (op.holds width a b)

section

variable {width : Nat} (hw : WordWidth width) (a b : Nat)

include hw

theorem rotate_eq {amount : Nat} (h : amount < width) :
    (rotate width a amount).bind (cut width) = some (Word.rotate width a amount) := by
  have hlim := hw.2
  unfold rotate Word.rotate
  split
  · next hzero => rw [Option.bind_some, cut_eq]
  · next hzero =>
    have hleft : amount < limit := by omega
    have hright : width - amount < limit := by omega
    simp only [shiftLeft_of_lt _ hleft, less_of_le h.le, shiftRight_of_lt _ hright,
      Option.bind_eq_bind, Option.bind_some, Option.pure_def, cut_eq, Option.some.injEq]
    -- the bits that the first shift loses are past the width
    refine Nat.eq_of_testBit_eq fun i => ?_
    simp only [testBit_truncate hlim, testBit_truncate le_rfl, Nat.testBit_or]
    by_cases hi : i < width
    · have hin : i < limit := by omega
      simp [hin]
    · simp [hi]

theorem arith_eq (op : ArithOp) : arith op width a b = some (op.apply width a b) := by
  have hpos : 0 < width := hw.1
  have hlim := hw.2
  have hones : truncate width (ones width) = ones width := truncate_of_lt (ones_lt width)
  unfold arith
  cases op with
  | add =>
    simp only [wide, Option.pure_def, Option.bind_eq_bind, Option.bind_some, cut_eq,
      ArithOp.apply, add, truncate_limit]
  | sub =>
    simp only [wide, Option.pure_def, Option.bind_eq_bind, Option.bind_some, cut_eq,
      ArithOp.apply, sub, truncate_wrap]
  | mul =>
    simp only [wide, Option.pure_def, Option.bind_eq_bind, Option.bind_some, cut_eq,
      ArithOp.apply, mul, truncate_limit]
  | udiv =>
    simp only [wide, ArithOp.apply, udiv, mask_eq]
    split
    · simp [cut_eq, hones]
    · simp [cut_eq]
  | urem =>
    simp only [wide, ArithOp.apply, urem, cut_eq]
    split <;> rfl
  | sdiv =>
    simp only [wide, signed_eq hw, ArithOp.apply, sdiv, mask_eq, Option.bind_eq_bind,
      Option.bind_some]
    split
    · split
      · simp [cut_eq]
      · simp [cut_eq]
    · simp [cut_eq, truncate_wrap]
  | srem =>
    simp only [wide, signed_eq hw, ArithOp.apply, srem, Option.bind_eq_bind, Option.bind_some,
      Option.pure_def, cut_eq]
    split
    · rfl
    · rw [truncate_wrap]
  | and | or | xor =>
    simp only [cut_eq]
    rfl
  | shl =>
    simp only [wide, ArithOp.apply, shl]
    split
    · simp [cut_eq, truncate]
    · next h =>
      rw [shiftLeft_of_lt _ (by omega)]
      simp [cut_eq, truncate_limit]
  | lshr =>
    simp only [wide, ArithOp.apply, lshr]
    split
    · simp [cut_eq, truncate]
    · next h =>
      rw [shiftRight_of_lt _ (by omega)]
      simp [cut_eq]
  | ashr =>
    simp only [wide, ArithOp.apply, ashr]
    split
    · simp only [topBit_eq hw, mask_eq, Option.bind_eq_bind, Option.bind_some]
      split
      · simp [cut_eq, hones]
      · simp [cut_eq, truncate]
    · next h =>
      simp only [signed_eq hw, shiftSigned_of_lt _ (show b < limit by omega),
        Option.bind_eq_bind, Option.bind_some, Option.pure_def, cut_eq, truncate_wrap]
  | rol =>
    simp only [wide, remainder_of_pos _ hpos]
    exact rotate_eq hw a (Nat.mod_lt b hpos)
  | ror =>
    simp only [wide, remainder_of_pos _ hpos, less_of_le (Nat.mod_lt b hpos).le,
      Option.bind_eq_bind, Option.bind_some]
    exact rotate_eq hw a (Nat.mod_lt _ hpos)

theorem compare_eq (op : CompareOp) : compare op width a b = some (op.holds width a b) := by
  unfold compare
  simp only [signed_eq hw]
  cases op <;> rfl

end

theorem unary_eq (hlim : width ≤ limit) (op : UnaryOp) (a : Nat) :
    unary op width a = some (op.apply width a) := by
  cases op with
  | not =>
    simp only [unary, cut_eq, UnaryOp.apply, Word.not, truncate_limit, Option.some.injEq]
    refine Nat.eq_of_testBit_eq fun i => ?_
    have hones : ∀ n ≤ limit, (ones n).testBit i = decide (i < n) := by
      intro n hn
      rw [ones, modulus_eq hn, Nat.testBit_two_pow_sub_one]
    simp only [testBit_truncate hlim, Nat.testBit_xor, hones _ hlim, hones _ le_rfl]
    by_cases hi : i < width
    · have hin : i < limit := by omega
      simp [hi, hin]
    · simp [hi]
  | neg => simp only [unary, cut_eq, UnaryOp.apply, neg, truncate_wrap]

end Checked

open Checked

/-! Formulas. -/

namespace Formula

mutual

/-- The value of a formula, worked out with the value of every operand. -/
def checked (v : Valuation) : Formula → Option Nat
  | constant value _ => some value
  | var id _ => some (v.var id)
  | arith op left right => do
    let a ← checked v left
    let b ← checked v right
    Checked.arith op left.width a b
  | compare op left right => do
    let a ← checked v left
    let b ← checked v right
    let holds ← Checked.compare op left.width a b
    return holds.toNat
  | unary op operand => do
    let a ← checked v operand
    Checked.unary op operand.width a
  | extract high low operand => do
    let a ← checked v operand
    let shifted ← Checked.shiftRight a low
    let top ← Checked.less high low
    Checked.cut (top + 1) shifted
  | concat high low => do
    let a ← checked v high
    let b ← checked v low
    let shifted ← Checked.shiftLeft a low.width
    return shifted ||| b
  | zeroExtend _ operand => checked v operand
  | signExtend width operand => do
    let a ← checked v operand
    let value ← Checked.signed operand.width a
    Checked.cut width (wrap limit value)
  | ite cond onTrue onFalse => do
    let c ← checked v cond
    let a ← checked v onTrue
    let b ← checked v onFalse
    return if c = 0 then b else a
  | memory _ => some 0
  | select array index => do
    let _ ← checked v array
    let address ← checked v index
    checkedByte v array address
  | store array index value => do
    let _ ← checked v array
    let _ ← checked v index
    let _ ← checked v value
    return 0

/-- The byte of an array at an address. -/
def checkedByte (v : Valuation) : Formula → (address : Nat) → Option Nat
  | store array index value, address => do
    let place ← checked v index
    if place = address then checked v value else checkedByte v array address
  | _, address => some (v.byte address.toUInt64).toNat

end

/-- A well-formed formula is valued without a step that is undefined, and has its
value. -/
theorem WellFormed.checked_eq_and (hv : v.Fits scope) (h : f.WellFormed scope) :
    f.checked v = some (f.eval v) ∧
      ∀ address, f.checkedByte v address = some (f.readArray v address) := by
  induction f with
  | constant | var | memory => exact ⟨rfl, fun _ => rfl⟩
  | arith op left right hl hr =>
    have hw := h.2.1.width_range
    refine ⟨?_, fun _ => rfl⟩
    simp only [checked, (hl h.2.1).1, (hr h.2.2).1]
    exact arith_eq hw _ _ op
  | compare op left right hl hr =>
    have hw := h.2.1.width_range
    refine ⟨?_, fun _ => rfl⟩
    simp only [checked, eval, (hl h.2.1).1, (hr h.2.2).1, compare_eq hw,
      Option.bind_eq_bind, Option.bind_some, Option.pure_def]
  | unary op operand hx =>
    have hw := h.2.width_range
    refine ⟨?_, fun _ => rfl⟩
    simp only [checked, (hx h.2).1]
    exact unary_eq hw.2 op _
  | extract high low operand hx =>
    have hw := h.2.width_range
    obtain ⟨hle, hlt, -⟩ := h.1
    have hlow : low < limit := by
      have := hw.2
      omega
    refine ⟨?_, fun _ => rfl⟩
    simp only [checked, eval, (hx h.2).1, shiftRight_of_lt _ hlow, less_of_le hle,
      cut_eq, Option.bind_eq_bind, Option.bind_some]
  | concat high low hx hy =>
    have hrange := h.2.1.width_range
    obtain ⟨hlim, -⟩ := h.1
    have hlow : low.width < limit := by
      have := hrange.1
      omega
    -- the higher part does not reach past the 128 bits
    have hfits : high.eval v <<< low.width < modulus limit := by
      have hlt := h.2.1.eval_lt hv
      rw [modulus_eq hrange.2] at hlt
      rw [modulus_eq le_rfl, Nat.shiftLeft_eq]
      calc high.eval v * 2 ^ low.width
          < 2 ^ high.width * 2 ^ low.width := mul_lt_mul_of_pos_right hlt (Nat.two_pow_pos _)
        _ = 2 ^ (high.width + low.width) := (pow_add 2 _ _).symm
        _ ≤ 2 ^ limit := Nat.pow_le_pow_right (by decide) hlim
    refine ⟨?_, fun _ => rfl⟩
    simp only [checked, eval, (hx h.2.1).1, (hy h.2.2).1, shiftLeft_of_lt _ hlow,
      truncate_of_lt hfits, Option.bind_eq_bind, Option.bind_some, Option.pure_def]
  | zeroExtend width operand hx => exact ⟨(hx h.2).1, fun _ => rfl⟩
  | signExtend width operand hx =>
    have hw := h.2.width_range
    refine ⟨?_, fun _ => rfl⟩
    simp only [checked, (hx h.2).1, signed_eq hw, cut_eq, truncate_wrap]
    rfl
  | ite cond onTrue onFalse hc hx hy =>
    refine ⟨?_, fun _ => rfl⟩
    simp only [checked, eval, (hc h.2.1).1, (hx h.2.2.1).1, (hy h.2.2.2).1, Option.bind_eq_bind,
      Option.bind_some, Option.pure_def]
  | select array index ha hi =>
    refine ⟨?_, fun _ => rfl⟩
    simp only [checked, eval, (ha h.2.1).1, (hi h.2.2).1, (ha h.2.1).2, Option.bind_eq_bind,
      Option.bind_some]
  | store array index value ha hi hx =>
    constructor
    · simp only [checked, eval, (ha h.2.1).1, (hi h.2.2.1).1, (hx h.2.2.2).1, Option.bind_eq_bind,
        Option.bind_some, Option.pure_def]
    · intro address
      simp only [checkedByte, readArray, (hi h.2.2.1).1, (hx h.2.2.2).1, (ha h.2.1).2,
        Option.bind_eq_bind, Option.bind_some]
      split <;> rfl

theorem WellFormed.checked_eq (h : f.WellFormed scope) (hv : v.Fits scope) :
    f.checked v = some (f.eval v) :=
  (checked_eq_and hv h).1

end Formula

/-! Registers and immediates. -/

namespace Register

def checkedRead (reg : Register) (parent : Nat) : Option Nat := do
  let shifted ← Checked.shiftRight parent reg.low
  Checked.cut reg.bits shifted

def checkedWrite (reg : Register) (parent value : Nat) : Option Nat := do
  let value ← Checked.cut reg.bits value
  if reg.isRoot then return value
  else
    match reg.merge with
    | .zeroExtend => return value
    | .preserve =>
      let ones ← Checked.mask reg.bits
      let field ← Checked.shiftLeft ones reg.low
      let placed ← Checked.shiftLeft value reg.low
      return (parent ^^^ (parent &&& field)) ||| placed

section

variable {arch : Architecture} {reg : Register} (h : arch.Has reg)

include h

theorem low_lt : reg.low < limit := by
  have hbound := h.bound
  have hlim := h.parentBits_le
  unfold limit
  omega

/-- What stands in the place of a register is within the 128 bits. -/
theorem placed_lt {value : Nat} (hvalue : value < modulus reg.bits) :
    value <<< reg.low < modulus limit := by
  have hwidth := h.wordWidth.2
  have hbound := h.bound
  have hlim := h.parentBits_le
  rw [modulus_eq hwidth] at hvalue
  rw [modulus_eq le_rfl, Nat.shiftLeft_eq]
  calc value * 2 ^ reg.low
      < 2 ^ reg.bits * 2 ^ reg.low := mul_lt_mul_of_pos_right hvalue (Nat.two_pow_pos _)
    _ = 2 ^ (reg.bits + reg.low) := (pow_add 2 _ _).symm
    _ ≤ 2 ^ limit := Nat.pow_le_pow_right (by decide) (by unfold limit; omega)

theorem checkedRead_eq (parent : Nat) : reg.checkedRead parent = some (reg.read parent) := by
  unfold checkedRead
  simp only [shiftRight_of_lt _ (low_lt h), cut_eq]
  rfl

theorem checkedWrite_eq (parent value : Nat) :
    reg.checkedWrite parent value = some (reg.write parent value) := by
  have hlow := low_lt h
  have hones := placed_lt h (ones_lt reg.bits)
  have hvalue := placed_lt h (truncate_lt reg.bits value)
  unfold checkedWrite write
  simp only [cut_eq, mask_eq, shiftLeft_of_lt _ hlow, Option.bind_eq_bind,
    Option.bind_some, Option.pure_def]
  split
  · rfl
  · cases reg.merge with
    | zeroExtend => rfl
    | preserve =>
      simp only [truncate_of_lt hones, truncate_of_lt hvalue]

end

end Register

def Immediate.checkedSized (imm : Immediate) (width : Nat) : Option Nat := do
  let value ← Checked.signed imm.bits imm.value.toNat
  Checked.cut width (wrap limit value)

theorem Immediate.checkedSized_eq {imm : Immediate} (h : WordWidth imm.bits) (width : Nat) :
    imm.checkedSized width = some (imm.sized width) := by
  unfold checkedSized sized signExtend
  simp only [signed_eq h, cut_eq, truncate_wrap, Option.bind_eq_bind, Option.bind_some]

end Concolic
