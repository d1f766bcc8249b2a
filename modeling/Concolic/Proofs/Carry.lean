import Concolic.Flags
import Concolic.Proofs.Word

/-
  Carries and borrows.

  The carry into a bit of a sum is decided by the bits below it (`Word.carryInto`). It
  is what a bit of the sum differs by from the exclusive or of its operands
  (`testBit_sum`), and the carry out of a bit is the majority of the bits and of the
  carry into it (`carryInto_succ`). A borrow of a difference is a carry of the sum that
  gives the first operand back. So the flags of a sum and of a difference, which are
  facts about numbers (`Status`), can be read off single bits of the operands and of
  the result (`Status.ofSum_carry`, `Status.combined_overflow` and the like), and a
  difference decides the order of its operands (`Status.ofDifference_less`).
-/

namespace Concolic

namespace Word

/-! The carries of a sum. -/

/-- Whether the bits below place `i` of two numbers, and a carry, add up to more than
they can hold. -/
def carryInto (a b c i : Nat) : Bool := decide (2 ^ i ≤ a % 2 ^ i + b % 2 ^ i + c)

section

variable {a b c i : Nat}

/-- A bit of a sum is that of its operands and of the carry into it. -/
theorem testBit_sum (hc : c ≤ 1) :
    (a + b + c).testBit i = ((a.testBit i ^^ b.testBit i) ^^ carryInto a b c i) := by
  have hpos : 0 < 2 ^ i := Nat.two_pow_pos i
  have ha := Nat.div_add_mod a (2 ^ i)
  have hb := Nat.div_add_mod b (2 ^ i)
  have hsplit : ∀ k, 2 ^ i * k ≤ a % 2 ^ i + b % 2 ^ i + c →
      a % 2 ^ i + b % 2 ^ i + c < 2 ^ i * k + 2 ^ i →
      (a + b + c) / 2 ^ i = a / 2 ^ i + b / 2 ^ i + k := by
    intro k hle hlt
    have hmul : 2 ^ i * (a / 2 ^ i + b / 2 ^ i + k) =
        2 ^ i * (a / 2 ^ i) + 2 ^ i * (b / 2 ^ i) + 2 ^ i * k := by ring
    refine Nat.div_eq_of_lt_le ?_ ?_
    · rw [mul_comm, hmul]
      omega
    · rw [Nat.succ_mul, mul_comm, hmul]
      omega
  rw [Nat.testBit_eq_decide_div_mod_eq, Nat.testBit_eq_decide_div_mod_eq,
    Nat.testBit_eq_decide_div_mod_eq]
  by_cases hcarry : 2 ^ i ≤ a % 2 ^ i + b % 2 ^ i + c
  · rw [carryInto, decide_eq_true hcarry, hsplit 1 (by omega) (by omega)]
    rcases Nat.mod_two_eq_zero_or_one (a / 2 ^ i) with hx | hx <;>
      rcases Nat.mod_two_eq_zero_or_one (b / 2 ^ i) with hy | hy <;> simp [hx, hy] <;> omega
  · rw [carryInto, decide_eq_false hcarry, hsplit 0 (by omega) (by omega)]
    rcases Nat.mod_two_eq_zero_or_one (a / 2 ^ i) with hx | hx <;>
      rcases Nat.mod_two_eq_zero_or_one (b / 2 ^ i) with hy | hy <;> simp [hx, hy] <;> omega

/-- The carry out of a place is the majority of its bits and the carry into it. -/
theorem carryInto_succ (hc : c ≤ 1) :
    carryInto a b c (i + 1) =
      ((a.testBit i && b.testBit i) ^^ (carryInto a b c i && (a.testBit i ^^ b.testBit i))) := by
  have hpos : 0 < 2 ^ i := Nat.two_pow_pos i
  unfold carryInto
  rw [Nat.testBit_eq_decide_div_mod_eq, Nat.testBit_eq_decide_div_mod_eq, Nat.mod_pow_succ,
    Nat.mod_pow_succ, pow_succ]
  rcases Nat.mod_two_eq_zero_or_one (a / 2 ^ i) with hx | hx <;>
    rcases Nat.mod_two_eq_zero_or_one (b / 2 ^ i) with hy | hy <;>
    simp only [hx, hy] <;> simp <;> omega

/-- The carry into a place rests on the bits below it. -/
theorem carryInto_of_lt (ha : a < 2 ^ i) (hb : b < 2 ^ i) :
    carryInto a b c i = decide (2 ^ i ≤ a + b + c) := by
  rw [carryInto, Nat.mod_eq_of_lt ha, Nat.mod_eq_of_lt hb]

end

/-! Sums and differences of words. -/

def sum (width a b c : Nat) : Nat := truncate width (a + b + c)

def difference (width a b c : Nat) : Nat := wrap width ((a : Int) - b - c)

def combined : Flags.Kind → Nat → Nat → Nat → Nat → Nat
  | .sum => sum
  | .difference => difference

section

variable {width a b c value : Nat}

theorem sum_lt : sum width a b c < modulus width := truncate_lt _ _

theorem difference_lt : difference width a b c < modulus width := wrap_lt _ _

/-- The first operand is the sum of the difference and of what was taken away. -/
theorem sum_difference (ha : a < modulus width) : sum width (difference width a b c) b c = a := by
  have hcast : ((sum width (difference width a b c) b c : Nat) : Int) = a := by
    rw [sum, ← wrap_natCast, wrap_cast]
    push_cast
    rw [difference, wrap_cast]
    calc (((a : Int) - b - c) % (modulus width : Int) + b + c) % (modulus width : Int)
        = ((a : Int) - b - c + (b + c)) % (modulus width : Int) := by
          rw [add_assoc, Int.emod_add_emod]
      _ = (a : Int) % (modulus width : Int) := by ring_nf
      _ = a := Int.emod_eq_of_lt (by omega) (by exact_mod_cast ha)
  exact_mod_cast hcast

theorem sum_cases (ha : a < modulus width) (hb : b < modulus width) (hc : c ≤ 1) :
    (a + b + c < modulus width ∧ sum width a b c = a + b + c) ∨
      (modulus width ≤ a + b + c ∧ sum width a b c + modulus width = a + b + c) := by
  rcases lt_or_ge (a + b + c) (modulus width) with hlt | hge
  · exact .inl ⟨hlt, truncate_of_lt hlt⟩
  · refine .inr ⟨hge, ?_⟩
    rw [sum, truncate, Nat.mod_eq_sub_mod hge, Nat.mod_eq_of_lt (by omega)]
    omega

theorem difference_cases (ha : a < modulus width) (hb : b < modulus width) (hc : c ≤ 1) :
    (b + c ≤ a ∧ difference width a b c + b + c = a) ∨
      (a < b + c ∧ difference width a b c + b + c = a + modulus width) := by
  have hlt : difference width a b c < modulus width := difference_lt
  have hsum := sum_difference (b := b) (c := c) ha
  rcases sum_cases hlt hb hc with ⟨_, hval⟩ | ⟨_, hval⟩ <;> omega

theorem testBit_top (hpos : 1 ≤ width) (h : value < 2 ^ width) :
    value.testBit (width - 1) = decide (2 ^ (width - 1) ≤ value) := by
  have hhalf : 2 ^ width = 2 ^ (width - 1) * 2 := by
    rw [← Nat.pow_succ, Nat.succ_eq_add_one, Nat.sub_add_cancel hpos]
  rw [Nat.testBit_eq_decide_div_mod_eq]
  rcases lt_or_ge value (2 ^ (width - 1)) with hlt | hge
  · rw [Nat.div_eq_of_lt hlt, decide_eq_false (by omega : ¬ 2 ^ (width - 1) ≤ value)]
    rfl
  · have hone : value / 2 ^ (width - 1) = 1 := Nat.div_eq_of_lt_le (by omega) (by omega)
    rw [hone, decide_eq_true hge]
    rfl

theorem modulus_eq_double (hpos : 1 ≤ width) (hw : width ≤ limit) :
    modulus width = 2 * 2 ^ (width - 1) := by
  rw [modulus_eq hw, ← Nat.pow_succ', Nat.succ_eq_add_one, Nat.sub_add_cancel hpos]

theorem signed_of_half (hpos : 1 ≤ width) (hw : width ≤ limit) (h : value < modulus width) :
    signed width value =
      if 2 ^ (width - 1) ≤ value then (value : Int) - 2 * 2 ^ (width - 1) else value := by
  have hhalf := modulus_eq_double hpos hw
  rw [signed, truncate_of_lt h, hhalf]
  push_cast
  by_cases hge : 2 ^ (width - 1) ≤ value
  · rw [if_neg (by omega), if_pos hge]
  · rw [if_pos (by omega), if_neg hge]

end

/-- Whether an integer is one of the signed numbers of `width` bits. -/
def fitsSigned (width : Nat) (value : Int) : Bool :=
  decide (-2 ^ (width - 1) ≤ value ∧ value < 2 ^ (width - 1))

/-- Whether the low byte has an even number of set bits. -/
def evenParity (value : Nat) : Bool := (List.range 8).countP value.testBit % 2 == 0

/-- Bits taken together one after the other, from `start` on, say whether the number of
those that are set is odd. -/
theorem foldl_xor {ι : Type} (bit : ι → Bool) (l : List ι) (start : Bool) :
    l.foldl (fun odd i => odd ^^ bit i) start = (start ^^ (l.countP bit % 2 == 1)) := by
  induction l generalizing start with
  | nil => simp
  | cons i l ih =>
    rw [List.foldl_cons, ih, List.countP_cons]
    cases hi : bit i with
    | false => simp
    | true =>
      have hodd : ((l.countP bit + 1) % 2 == 1) = !(l.countP bit % 2 == 1) := by
        rw [Bool.eq_iff_iff, Bool.not_eq_true', beq_iff_eq, beq_eq_false_iff_ne]
        omega
      simp [hodd]

theorem evenParity_eq (value : Nat) :
    evenParity value = (List.range 8).foldl (fun even i => even ^^ value.testBit i) true := by
  rw [foldl_xor, evenParity, Bool.true_xor, Bool.eq_iff_iff, Bool.not_eq_true', beq_iff_eq,
    beq_eq_false_iff_ne]
  omega

end Word

/-! The flags of a sum and of a difference. -/

/-- What is known of a result beside its value. -/
structure Status where
  /-- A carry or a borrow goes across the middle of the low byte. -/
  adjust : Bool
  /-- The unsigned range is left. -/
  carry : Bool
  /-- The signed range is left. -/
  overflow : Bool
  /-- The low byte has an even number of set bits. -/
  parity : Bool
  sign : Bool
  zero : Bool
  deriving DecidableEq

namespace Status

open Word

def ofSum (width a b c : Nat) : Status where
  adjust := decide (16 ≤ a % 16 + b % 16 + c)
  carry := decide (2 ^ width ≤ a + b + c)
  overflow := !fitsSigned width (signed width a + signed width b + c)
  parity := evenParity (sum width a b c)
  sign := (sum width a b c).testBit (width - 1)
  zero := sum width a b c == 0

def ofDifference (width a b c : Nat) : Status where
  adjust := decide (a % 16 < b % 16 + c)
  carry := decide (a < b + c)
  overflow := !fitsSigned width (signed width a - signed width b - c)
  parity := evenParity (difference width a b c)
  sign := (difference width a b c).testBit (width - 1)
  zero := difference width a b c == 0

def combined : Flags.Kind → Nat → Nat → Nat → Nat → Status
  | .sum => ofSum
  | .difference => ofDifference

section

variable {width a b c : Nat} (hw : width ≤ limit) (ha : a < modulus width)
  (hb : b < modulus width) (hc : c ≤ 1)

include hw hc

theorem ofSum_adjust (hwide : 4 < width) :
    ((a.testBit 4 ^^ b.testBit 4) ^^ (sum width a b c).testBit 4) = (ofSum width a b c).adjust := by
  rw [sum, testBit_truncate hw, testBit_sum hc]
  simp only [hwide, ofSum]
  have hlow : carryInto a b c 4 = decide (16 ≤ a % 16 + b % 16 + c) := rfl
  rw [hlow]
  cases a.testBit 4 <;> cases b.testBit 4 <;> simp

include ha

theorem ofDifference_adjust (hwide : 4 < width) :
    ((a.testBit 4 ^^ b.testBit 4) ^^ (difference width a b c).testBit 4) =
      (ofDifference width a b c).adjust := by
  -- bit four of the first operand is that of a sum
  have hbit := testBit_sum (a := difference width a b c) (b := b) (i := 4) hc
  have hsum := sum_difference (b := b) (c := c) ha
  have hfirst : a.testBit 4 = (difference width a b c + b + c).testBit 4 := by
    conv_lhs => rw [← hsum]
    rw [sum, testBit_truncate hw]
    simp [hwide]
  have hsplit : modulus width = 16 * 2 ^ (width - 4) := by
    rw [modulus_eq hw, show (16 : Nat) = 2 ^ 4 by decide, ← pow_add]
    congr 1
    omega
  have hlow : a % 16 = (difference width a b c + b + c) % 16 := by
    conv_lhs => rw [← hsum]
    rw [sum, truncate, hsplit, Nat.mod_mul_right_mod]
  rw [hfirst, hbit]
  simp only [carryInto, ofDifference]
  have hdiff : decide (2 ^ 4 ≤ difference width a b c % 2 ^ 4 + b % 2 ^ 4 + c) =
      decide (a % 16 < b % 16 + c) := by
    rw [Bool.eq_iff_iff, decide_eq_true_iff, decide_eq_true_iff, hlow]
    omega
  rw [hdiff]
  cases (difference width a b c).testBit 4 <;> cases b.testBit 4 <;> simp

theorem combined_adjust (kind : Flags.Kind) (hwide : 4 < width) :
    ((a.testBit 4 ^^ b.testBit 4) ^^ (Word.combined kind width a b c).testBit 4) =
      (combined kind width a b c).adjust := by
  cases kind with
  | sum => exact ofSum_adjust hw hc hwide
  | difference => exact ofDifference_adjust hw ha hc hwide

include hb

theorem ofSum_carry (hpos : 1 ≤ width) :
    ((a.testBit (width - 1) && b.testBit (width - 1)) ^^
      (((a.testBit (width - 1) ^^ b.testBit (width - 1)) ^^
        (sum width a b c).testBit (width - 1)) &&
          (a.testBit (width - 1) ^^ b.testBit (width - 1)))) = (ofSum width a b c).carry := by
  rw [modulus_eq hw] at ha hb
  have hcarry := carryInto_succ (a := a) (b := b) (i := width - 1) hc
  rw [Nat.sub_add_cancel hpos, carryInto_of_lt ha hb] at hcarry
  rw [sum, testBit_truncate hw, testBit_sum hc]
  simp only [show width - 1 < width by omega, ofSum, hcarry]
  generalize carryInto a b c (width - 1) = k
  cases a.testBit (width - 1) <;> cases b.testBit (width - 1) <;> cases k <;> rfl

theorem ofDifference_carry (hpos : 1 ≤ width) :
    (((a.testBit (width - 1) ^^ b.testBit (width - 1)) ^^
        (difference width a b c).testBit (width - 1)) ^^
      ((a.testBit (width - 1) ^^ (difference width a b c).testBit (width - 1)) &&
        (a.testBit (width - 1) ^^ b.testBit (width - 1)))) = (ofDifference width a b c).carry := by
  have hr : difference width a b c < modulus width := difference_lt
  have hcases := difference_cases ha hb hc
  have hsum := sum_difference (b := b) (c := c) ha
  have hcarry := carryInto_succ (a := difference width a b c) (b := b) (i := width - 1) hc
  rw [Nat.sub_add_cancel hpos, carryInto_of_lt (modulus_eq hw ▸ hr) (modulus_eq hw ▸ hb),
    ← modulus_eq hw] at hcarry
  have hout : (ofDifference width a b c).carry =
      decide (modulus width ≤ difference width a b c + b + c) := by
    rw [ofDifference, Bool.eq_iff_iff, decide_eq_true_iff, decide_eq_true_iff]
    omega
  have hfirst : a.testBit (width - 1) = (difference width a b c + b + c).testBit (width - 1) := by
    conv_lhs => rw [← hsum]
    rw [sum, testBit_truncate hw]
    simp [show width - 1 < width by omega]
  rw [hout, hcarry, hfirst, testBit_sum hc]
  generalize carryInto _ b c (width - 1) = k
  cases (difference width a b c).testBit (width - 1) <;> cases b.testBit (width - 1) <;>
    cases k <;> rfl

theorem combined_overflow (kind : Flags.Kind) (hpos : 1 ≤ width) :
    ((a.testBit (width - 1) ^^ (decide (kind = .sum) ^^ b.testBit (width - 1))) &&
      (a.testBit (width - 1) ^^ (Word.combined kind width a b c).testBit (width - 1))) =
        (combined kind width a b c).overflow := by
  have hhalf := modulus_eq_double hpos hw
  have hr : Word.combined kind width a b c < modulus width := by
    cases kind
    · exact sum_lt
    · exact difference_lt
  have hsum := sum_cases ha hb hc
  have hdifference := difference_cases ha hb hc
  have hword : ∀ {n}, n < modulus width → n < 2 ^ width := fun h => modulus_eq hw ▸ h
  rw [testBit_top hpos (hword ha), testBit_top hpos (hword hb), testBit_top hpos (hword hr)]
  generalize hh : 2 ^ (width - 1) = half at *
  have hcast : (2 : Int) ^ (width - 1) = half := by exact_mod_cast hh
  by_cases h₁ : half ≤ a <;> by_cases h₂ : half ≤ b <;>
    by_cases h₃ : half ≤ Word.combined kind width a b c <;> cases kind <;>
    simp only [Word.combined] at hr h₃ <;>
    simp [combined, ofSum, ofDifference, Word.combined, fitsSigned, signed_of_half hpos hw ha,
      signed_of_half hpos hw hb, hh, h₁, h₂, h₃] <;> omega

omit hc

omit hw in
theorem ofDifference_zero : (ofDifference width a b 0).zero = (a == b) := by
  have hr : difference width a b 0 < modulus width := difference_lt
  have hcases := difference_cases ha hb (Nat.zero_le 1)
  rw [ofDifference, Bool.eq_iff_iff, beq_iff_eq, beq_iff_eq]
  omega

/-- The sign of a difference is that of the signed difference, unless it overflows. -/
theorem ofDifference_less (hpos : 1 ≤ width) :
    ((ofDifference width a b 0).sign ^^ (ofDifference width a b 0).overflow) =
      decide (signed width a < signed width b) := by
  have hhalf := modulus_eq_double hpos hw
  have hr : difference width a b 0 < modulus width := difference_lt
  have hcases := difference_cases ha hb (Nat.zero_le 1)
  have htop := testBit_top hpos (modulus_eq hw ▸ hr)
  simp only [ofDifference, htop, fitsSigned, signed_of_half hpos hw ha, signed_of_half hpos hw hb]
  generalize difference width a b 0 = r at hr hcases
  generalize hh : 2 ^ (width - 1) = half at *
  have hcast : (2 : Int) ^ (width - 1) = half := by exact_mod_cast hh
  rw [hcast, Bool.eq_iff_iff]
  by_cases h₁ : half ≤ a <;> by_cases h₂ : half ≤ b <;> by_cases h₃ : half ≤ r <;>
    simp [h₃] <;> omega

end

end Status

end Concolic
