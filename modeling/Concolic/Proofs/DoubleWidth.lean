import Concolic.Proofs.Arithmetic
import Concolic.Proofs.FreshVariables

/-
  Numbers of two halves.

  Multiplication and division work on numbers of twice the width of their operands, in a
  pair of registers. A word stands for a number, signed or not (`Word.number`), and the
  number of a wide word is cut to the halves of it; a pair of registers holds such a
  number (`Machine.wide`), and what is written to one half leaves the other as it is
  (`Machine.register_setRegister_apart`).
-/

namespace Concolic

open Word Register Machine Build X86

variable {x : Int} {m : Machine} {left right width : Nat} {reg high low : Register} {S : Scene}

namespace Word

/-- The number that a word stands for. -/
def number (signed : Bool) (width value : Nat) : Int :=
  if signed then Word.signed width value else value

/-- Whether a number is one that a word of `width` bits stands for. -/
def fits (signed : Bool) (width : Nat) (x : Int) : Bool :=
  if signed then fitsSigned width x else decide (0 ≤ x ∧ x < 2 ^ width)

section

variable {width wide value : Nat}

theorem wrap_number (signed : Bool) (h : value < modulus width) :
    wrap width (number signed width value) = value := by
  cases signed with
  | true => exact (wrap_signed width value).trans (truncate_of_lt h)
  | false => exact (wrap_natCast width value).trans (truncate_of_lt h)

theorem number_eq_zero (signed : Bool) (h : value < modulus width) :
    number signed width value = 0 ↔ value = 0 := by
  constructor
  · intro hzero
    have hwrap := wrap_number signed h
    rw [hzero] at hwrap
    exact hwrap.symm.trans (Int.toNat_eq_zero.2 (by simp))
  · rintro rfl
    cases signed with
    | true => simp [number, signed, truncate]
    | false => rfl

theorem fitsSigned_iff (hpos : 1 ≤ width) (hw : width ≤ limit) :
    fitsSigned width x = true ↔ -(modulus width : Int) ≤ 2 * x ∧ 2 * x < modulus width := by
  rw [fitsSigned, decide_eq_true_iff, modulus_eq_double hpos hw]
  push_cast
  omega

theorem fits_number (signed : Bool) (hpos : 1 ≤ width) (hw : width ≤ limit)
    (h : value < modulus width) : fits signed width (number signed width value) = true := by
  cases signed with
  | true => exact (fitsSigned_iff hpos hw).2 (signed_range width value)
  | false =>
    rw [modulus_eq hw] at h
    have hhigh : (value : Int) < 2 ^ width := by exact_mod_cast h
    exact decide_eq_true ⟨Int.natCast_nonneg _, hhigh⟩

/-- A number that fits is that of its word. -/
theorem number_wrap (signed : Bool) (hpos : 1 ≤ width) (hw : width ≤ limit)
    (h : fits signed width x = true) : number signed width (wrap width x) = x := by
  cases signed with
  | true =>
    obtain ⟨hlow, hhigh⟩ := (fitsSigned_iff hpos hw).1 h
    exact signed_wrap hlow hhigh
  | false =>
    obtain ⟨hlow, hhigh⟩ := of_decide_eq_true h
    refine (wrap_cast width x).trans (Int.emod_eq_of_lt hlow ?_)
    rw [modulus_eq hw]
    exact_mod_cast hhigh

theorem truncate_wrap (h : width ≤ wide) (x : Int) :
    truncate width (wrap wide x) = wrap width x := by
  have hdvd : (modulus width : Int) ∣ modulus wide := by
    exact_mod_cast pow_dvd_pow 2 (by omega)
  rw [← wrap_natCast, wrap_eq_iff, wrap_cast, Int.emod_emod_of_dvd _ hdvd]

theorem join_eq {low : Nat} (hw : width ≤ limit) (h : low < modulus width) (high : Nat) :
    join width high low = high * 2 ^ width + low := by
  rw [modulus_eq hw] at h
  rw [join, ← Nat.shiftLeft_add_eq_or_of_lt h, Nat.shiftLeft_eq]

end

end Word

theorem Build.makes_minus (rules : Rules) (h : right ≤ left) :
    Makes rules True (minus left right) (· = left - right) := by
  rw [minus_of_le h]
  exact .pure rfl

theorem Scene.Runs.minus (h : right ≤ left) :
    S.Runs m (Step.exec (Exec.build (minus left right))) m (· = left - right) :=
  of_makes fun _ _ => .build (makes_minus _ h) fun _ => rfl

namespace View.Forms

variable {V : View} {rules : Rules} {f : Formula} {width wide value : Nat}

/-- A word in a greater width stands for the same number. -/
theorem extend (signed : Bool) (hf : V.Gives f width value) (hle : width ≤ wide)
    (hlim : wide ≤ limit) :
    V.Forms rules (if signed then Build.signExtend wide f else Build.zeroExtend wide f) wide
      (wrap wide (number signed width value)) := by
  cases signed with
  | true => exact signExtend hf hle hlim
  | false =>
    refine (zeroExtend hf hle hlim).of_eq rfl ?_
    refine ((wrap_natCast wide value).trans (truncate_of_lt ?_)).symm
    exact lt_of_lt_of_le hf.lt (modulus_mono hle)

theorem lowHalf (hf : V.Gives f wide (wrap wide x)) (hpos : 1 ≤ width) (hle : width ≤ wide) :
    V.Forms rules (Build.extract (width - 1) 0 f) width (wrap width x) := by
  have hwidth : width - 1 - 0 + 1 = width := by omega
  refine (extract hf (Nat.zero_le _) (by omega)).of_eq hwidth ?_
  rw [slice, hwidth, Nat.shiftRight_zero, truncate_wrap hle]

end View.Forms

/-! Registers that lie apart, or side by side. -/

/-- A write to the first register leaves the second as it is: they lie in different roots,
or apart in a root whose rest is kept. -/
def Register.apart (reg other : Register) : Bool :=
  reg.parent != other.parent || (!reg.isRoot && reg.merge == .preserve &&
    (decide (other.low + other.bits ≤ reg.low) || decide (reg.low + reg.bits ≤ other.low)))

/-- The first register has the second as its low part and the third above it. -/
def Register.covers (whole low high : Register) : Bool :=
  whole.parent == low.parent && whole.parent == high.parent && whole.low == low.low &&
    high.low == low.low + low.bits && whole.bits == low.bits + high.bits

theorem Register.bits_of_covers {whole : Register} (h : whole.covers low high = true) :
    whole.bits = low.bits + high.bits := by
  simp only [covers, Bool.and_eq_true, beq_iff_eq] at h
  exact h.2

namespace Machine

variable {arch : Architecture} {reg other : Register}

theorem register_setRegister_self (hreg : arch.Has reg) (m : Machine) {value : Nat}
    (hvalue : value < modulus reg.bits) : (m.setRegister reg value).register reg = value := by
  rw [register, root_setRegister, if_pos rfl]
  exact hreg.read_write hvalue _

theorem register_setRegister_apart (hreg : arch.Has reg) (hother : arch.Has other)
    (h : reg.apart other = true) (m : Machine) (value : Nat) :
    (m.setRegister reg value).register other = m.register other := by
  by_cases hparent : reg.parent = other.parent
  · simp only [apart, hparent, bne_self_eq_false, Bool.false_or, Bool.and_eq_true,
      Bool.not_eq_true', beq_iff_eq, Bool.or_eq_true, decide_eq_true_eq] at h
    obtain ⟨⟨hpart, hmerge⟩, happart⟩ := h
    have hlim := hreg.wordWidth.2
    rw [register, root_setRegister, if_pos hparent, register, Register.read, Register.read,
      ← hparent]
    apply Nat.eq_of_testBit_eq
    intro i
    rw [testBit_truncate hother.wordWidth.2, testBit_truncate hother.wordWidth.2,
      Nat.testBit_shiftRight, Nat.testBit_shiftRight, testBit_write hpart hmerge hlim]
    by_cases hi : i < other.bits
    · rw [if_neg (by omega)]
    · rw [decide_eq_false hi, Bool.false_and, Bool.false_and]
  · exact register_setRegister_of_ne hparent m value

/-- What lies side by side is read as one. -/
theorem register_covers {whole : Register} (hwhole : arch.Has whole) (hlow : arch.Has low)
    (hhigh : arch.Has high) (h : whole.covers low high = true) (m : Machine) :
    m.register whole = m.register high * 2 ^ low.bits + m.register low := by
  simp only [covers, Bool.and_eq_true, beq_iff_eq] at h
  obtain ⟨⟨⟨⟨hlowParent, hhighParent⟩, hlowest⟩, habove⟩, hbits⟩ := h
  rw [← join_eq hlow.wordWidth.2 (m.register_lt low)]
  apply Nat.eq_of_testBit_eq
  intro i
  rw [testBit_join hlow.wordWidth.2 (m.register_lt low), register, register, register,
    Register.read, Register.read, Register.read, testBit_truncate hwhole.wordWidth.2,
    testBit_truncate hlow.wordWidth.2, testBit_truncate hhigh.wordWidth.2,
    Nat.testBit_shiftRight, Nat.testBit_shiftRight, Nat.testBit_shiftRight, ← hlowParent,
    ← hhighParent, hlowest, habove, hbits]
  by_cases hi : i < low.bits
  · rw [if_pos hi, decide_eq_true hi, decide_eq_true (by omega)]
  · rw [if_neg hi,
      decide_eq_decide.2 (by omega : i < low.bits + high.bits ↔ i - low.bits < high.bits),
      show low.low + low.bits + (i - low.bits) = low.low + i by omega]

/-- The number in a pair of registers, without a sign. -/
def wide (m : Machine) (low high : Register) : Nat :=
  m.register high * 2 ^ low.bits + m.register low

end Machine

/-! The accumulator and its upper half. -/

namespace X86

/-- The registers hold the low and the high half of numbers of twice the width. -/
structure Holds (arch : Architecture) (width : Nat) (low high : Register) : Prop where
  pair : halves? width = some ⟨low.id, high.id⟩
  low : arch.Has low
  high : arch.Has high

/-- The register is read and written like any other. -/
def isPlain (arch : Architecture) (reg : Register) : Bool :=
  !arch.isZeroRegister reg && !arch.isProgramCounter reg && arch.programCounter.apart reg

/-- What is so of the halves: they have the width and lie apart, and two halves of eight
bits are one register. -/
def suitHalves (arch : Architecture) (width : Nat) (low high : Register) : Bool :=
  low.bits == width && high.bits == width && isPlain arch low && isPlain arch high &&
    low.apart high && high.apart low && (width != 8 || (arch.register? ax).any fun whole =>
      isPlain arch whole && whole.covers low high)

variable {arch : Architecture} {width : Nat} {low high : Register}

theorem Holds.width_cases (h : Holds arch width low high) :
    width = 8 ∨ width = 16 ∨ width = 32 ∨ width = 64 := by
  have hpair := h.pair
  unfold halves? at hpair
  split at hpair
  · exact .inl rfl
  · exact .inr (.inl rfl)
  · exact .inr (.inr (.inl rfl))
  · exact .inr (.inr (.inr rfl))
  · cases hpair

theorem Holds.range (h : Holds arch width low high) : 8 ≤ width ∧ width * 2 ≤ limit := by
  rcases h.width_cases with rfl | rfl | rfl | rfl <;> decide

theorem Holds.suits (h : Holds arch width low high) (hx86 : arch.isX86 = true) :
    suitHalves arch width low high = true := by
  have hall : ∀ arch : Architecture, arch.isX86 = true → ∀ width ∈ [8, 16, 32, 64],
      ((halves? width).all fun pair => (arch.register? pair.low).all fun low =>
        (arch.register? pair.high).all fun high => suitHalves arch width low high) = true := by
    intro arch
    cases arch <;> decide +kernel
  have hwidth : width ∈ [8, 16, 32, 64] := by
    simpa using h.width_cases
  have hsuits := hall arch hx86 width hwidth
  rw [h.pair, Option.all_some, h.low, Option.all_some, h.high, Option.all_some] at hsuits
  exact hsuits

section

variable (h : Holds arch width low high) (hx86 : arch.isX86 = true)

include h hx86

theorem Holds.bits : low.bits = width ∧ high.bits = width := by
  have hsuits := h.suits hx86
  simp only [suitHalves, Bool.and_eq_true, beq_iff_eq] at hsuits
  exact hsuits.1.1.1.1.1

theorem Holds.plain : isPlain arch low = true ∧ isPlain arch high = true := by
  have hsuits := h.suits hx86
  simp only [suitHalves, Bool.and_eq_true] at hsuits
  exact ⟨hsuits.1.1.1.1.2, hsuits.1.1.1.2⟩

theorem Holds.apart : low.apart high = true ∧ high.apart low = true := by
  have hsuits := h.suits hx86
  simp only [suitHalves, Bool.and_eq_true] at hsuits
  exact ⟨hsuits.1.1.2, hsuits.1.2⟩

theorem Holds.whole (hwidth : width = 8) :
    ∃ whole, arch.register? ax = some whole ∧ isPlain arch whole = true ∧
      whole.bits = width * 2 ∧ ∀ m : Machine, m.register whole = m.wide low high := by
  have hsuits := h.suits hx86
  simp only [suitHalves, hwidth, Bool.and_eq_true] at hsuits
  obtain ⟨whole, hwhole, hplain⟩ := Option.any_eq_true _ _ |>.1 hsuits.2
  obtain ⟨hplain, hcovers⟩ := Bool.and_eq_true_iff.1 hplain
  obtain ⟨hlowBits, hhighBits⟩ := h.bits hx86
  refine ⟨whole, hwhole, hplain, ?_,
    register_covers (Architecture.has_of_register? hwhole) h.low h.high hcovers⟩
  rw [bits_of_covers hcovers, hlowBits, hhighBits, mul_two]

theorem Holds.register_writes (m : Machine) {q r : Nat} (hq : q < modulus width)
    (hr : r < modulus width) :
    ((m.setRegister low q).setRegister high r).register low = q ∧
    ((m.setRegister low q).setRegister high r).register high = r := by
  obtain ⟨hlowBits, hhighBits⟩ := h.bits hx86
  rw [register_setRegister_apart h.high h.low (h.apart hx86).2]
  exact ⟨register_setRegister_self h.low m (hlowBits.symm ▸ hq),
    register_setRegister_self h.high _ (hhighBits.symm ▸ hr)⟩

theorem Holds.register_setCounter (m : Machine) (next : Nat) :
    (m.setRegister arch.programCounter next).register low = m.register low ∧
    (m.setRegister arch.programCounter next).register high = m.register high := by
  obtain ⟨hlowPlain, hhighPlain⟩ := h.plain hx86
  simp only [isPlain, Bool.and_eq_true] at hlowPlain hhighPlain
  exact ⟨register_setRegister_apart arch.programCounter_has h.low hlowPlain.2 m next,
    register_setRegister_apart arch.programCounter_has h.high hhighPlain.2 m next⟩

end

end X86

namespace X86

theorem Holds.halves {arch : Architecture} (h : Holds arch width low high) :
    halves width = pure ⟨low.id, high.id⟩ := by
  simp [X86.halves, h.pair]

end X86

theorem Scene.registerValue_plain (h : isPlain S.arch reg = true) (m : Machine) :
    S.registerValue m reg = m.register reg := by
  simp only [isPlain, Bool.and_eq_true, Bool.not_eq_true'] at h
  rw [registerValue, Instruction.registerValue, h.1.1, h.1.2, if_neg Bool.false_ne_true,
    if_neg Bool.false_ne_true]

theorem Scene.Runs.halves (h : Holds S.arch width low high) :
    S.Runs m (halves width) m (· = ⟨low.id, high.id⟩) := by
  rw [h.halves]
  exact pure rfl

theorem Scene.Runs.writePlain (hreg : S.arch.Has reg) (hplain : isPlain S.arch reg = true)
    {f : Formula} {n : Nat} (hf : S.view.Gives f reg.bits n) (comment : String) (tainted : Bool) :
    S.Moves m (Step.writeRegister reg.id f comment tainted) (m.setRegister reg n) := by
  simp only [isPlain, Bool.and_eq_true, Bool.not_eq_true'] at hplain
  exact writeRegister hreg hplain.1.1 hf comment tainted

namespace X86

def upperByte : Register := Architecture.x86_64.numbered ah

theorem holds_bytes : Holds .x86_64 8 accumulatorByte upperByte := by
  refine ⟨?_, Architecture.numbered_has _, Architecture.numbered_has _⟩
  rw [accumulatorByte, upperByte, Architecture.numbered_id, Architecture.numbered_id]
  rfl

end X86

end Concolic
