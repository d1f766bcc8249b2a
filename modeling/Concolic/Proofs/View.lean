import Concolic.Flags
import Concolic.Proofs.Carry
import Concolic.Proofs.Correspondence
import Concolic.Proofs.Denotation
import Concolic.Proofs.Memory

/-
  Formulas with a known value.

  A view is a set of valuations of the variables and of memory. A formula gives a value
  in a view if it has this value under all of its valuations (`View.Gives`); in a bare
  view it reads no memory. The
  constructors take such formulas to such formulas, with the value of the operator
  (`View.Forms`), under all rules; so the constructions of flags give the flags of the
  sum or of the difference whose operands and result they are given
  (`View.Forms.carry`, `View.Forms.overflow` and the like).
-/

namespace Concolic

open Word Formula Build Call Machine ArithOp

variable {a b i value width wide width' : Nat} {ι : Type} {l : List ι}

theorem Word.slice_self (i value : Nat) : slice i i value = (value.testBit i).toNat := by
  rw [slice, Nat.sub_self, truncate, modulus_eq (by decide : 0 + 1 ≤ limit), pow_one,
    Nat.testBit_eq_decide_div_mod_eq, Nat.shiftRight_eq_div_pow]
  rcases Nat.mod_two_eq_zero_or_one (value / 2 ^ i) with h | h <;> simp [h]

section

variable (hw : width ≤ limit) (hi : i < width)

include hw hi

/-- The bits of a bitwise operation are those of its operands. -/
theorem Word.testBit_xor : (xor width a b).testBit i = (a.testBit i ^^ b.testBit i) := by
  rw [xor, testBit_truncate hw, Nat.testBit_xor, decide_eq_true hi, Bool.true_and]

theorem Word.testBit_and : (and width a b).testBit i = (a.testBit i && b.testBit i) := by
  rw [and, testBit_truncate hw, Nat.testBit_and, decide_eq_true hi, Bool.true_and]

theorem Word.testBit_not : (not width a).testBit i = !a.testBit i := by
  rw [not, testBit_truncate hw, Nat.testBit_xor, decide_eq_true hi, Bool.true_and, ones,
    modulus_eq hw, Nat.testBit_two_pow_sub_one, decide_eq_true hi, Bool.true_xor]

/-- Whether a bit is set, by a mask. -/
theorem Word.and_mask :
    (and width value (truncate width (2 ^ i)) == truncate width (2 ^ i)) = value.testBit i := by
  have hlt : 2 ^ i < modulus width := by
    rw [modulus_eq hw]
    exact Nat.pow_lt_pow_right (by decide) hi
  have hpos := Nat.two_pow_pos i
  rw [truncate_of_lt hlt, and, Nat.and_two_pow]
  cases value.testBit i with
  | true => rw [Bool.toNat_true, one_mul, truncate_of_lt hlt, beq_self_eq_true]
  | false =>
    rw [Bool.toNat_false, zero_mul, truncate, Nat.zero_mod, beq_eq_false_iff_ne]
    omega

end

/-- Valuations that are looked at, of the variables of a scope. With `bare`, the formulas
looked at read no memory. -/
structure View where
  scope : Scope
  bare : Prop
  admits : Valuation → Prop
  fits : ∀ {v}, admits v → v.Fits scope
  nonempty : ∃ v, admits v

namespace View

def Takes (V : View) (f : Formula) : Prop := f.WellFormed V.scope ∧ (V.bare → f.Memoryless)

/-- The formula is a word of `width` bits, with one value under the valuations of the
view. -/
structure Gives (V : View) (f : Formula) (width value : Nat) : Prop where
  wellFormed : f.WellFormed V.scope
  word : f.isArray = false
  width_eq : f.width = width
  eval_eq : ∀ {v}, V.admits v → f.eval v = value
  memoryless : V.bare → f.Memoryless

variable {V : View} {rules : Rules}

namespace Gives

variable {f : Formula} {width value : Nat}

theorem lt (h : V.Gives f width value) : value < modulus width := by
  obtain ⟨v, hv⟩ := V.nonempty
  rw [← h.eval_eq hv, ← h.width_eq]
  exact h.wellFormed.eval_lt (V.fits hv)

theorem width_range (h : V.Gives f width value) : WordWidth width :=
  h.width_eq ▸ h.wellFormed.width_range

theorem takes (h : V.Gives f width value) : V.Takes f := ⟨h.wellFormed, h.memoryless⟩

theorem means (h : V.Gives f width value) : f.Means V.scope V.Takes width f.eval :=
  ⟨h.takes, h.word, h.width_eq, fun _ _ => rfl⟩

end Gives

theorem hereditary (V : View) : Hereditary V.scope V.Takes :=
  (WellFormed.hereditary V.scope).memoryless V.bare

/-- The construction makes a formula with a known value. -/
def Forms (V : View) (rules : Rules) (x : Build Formula) (width value : Nat) : Prop :=
  Build.Makes rules True x fun f => V.Gives f width value

namespace Forms

theorem pure {f : Formula} (h : V.Gives f width value) :
    V.Forms rules (pure f) width value := Makes.pure h

theorem of_eq {x : Build Formula} {width value' : Nat} (h : V.Forms rules x width value)
    (hw : width = width') (hv : value = value') : V.Forms rules x width' value' := by
  subst hw hv
  exact h

theorem of_denotes {x : Build Formula} {a : Valuation → Nat}
    (h : Denotes V.scope V.Takes rules x width a) (ha : ∀ {v}, V.admits v → a v = value) :
    V.Forms rules x width value :=
  h.mono id fun _ hf => ⟨hf.kept.1, hf.word, hf.width_eq, fun hv =>
    (hf.eval_eq _ (V.fits hv)).trans (ha hv), hf.kept.2⟩

theorem call {c : Call} (hl : c.plain.Lawful) (hword : c.plain.IsWord)
    (hc : Corresponds (fun f _ => V.Takes f) c c)
    (hvalue : ∀ {v}, V.admits v → c.plain.eval v = value) :
    V.Forms rules c.run c.plain.width value := by
  have hwf := wellFormed_plain hl fun f hf => (hc.children f hf).1
  exact of_denotes (.call V.hereditary hl hword hwf.width_range hc.children) hvalue

theorem constant (h : WordWidth width) (value : Nat) :
    V.Forms rules (constant value width) width (truncate width value) := by
  refine (Makes.word value width).mono (fun _ => h) fun f hf => ?_
  obtain ⟨hw, rfl⟩ := hf
  exact ⟨⟨hw, truncate_lt _ _⟩, rfl, rfl, fun _ => rfl, fun _ => trivial⟩

theorem zero (h : WordWidth width) : V.Forms rules (zero width) width 0 :=
  (constant h 0).of_eq rfl (Nat.zero_mod _)

theorem flag (b : Bool) : V.Forms rules (flag b) 1 b.toNat :=
  (constant (by decide) b.toNat).of_eq rfl (by cases b <;> rfl)

section

variable {f g : Formula} {width a b : Nat} (hf : V.Gives f width a)

include hf

theorem arith (op : ArithOp) (hg : V.Gives g width b) :
    V.Forms rules (arith op f g) width (op.apply width a b) :=
  of_denotes (.arith V.hereditary hf.width_range op hf.means hg.means) fun hv => by
    rw [hf.eval_eq hv, hg.eval_eq hv]

theorem compare (op : CompareOp) (hg : V.Gives g width b) :
    V.Forms rules (compare op f g) 1 (op.holds width a b).toNat := by
  have hlawful : (Call.compare op f g).plain.Lawful :=
    ⟨hf.width_eq.trans hg.width_eq.symm, hf.word, hg.word⟩
  refine call hlawful trivial (.compare hf.takes hg.takes) fun hv => ?_
  simp only [plain, eval, hf.width_eq, hf.eval_eq hv, hg.eval_eq hv]

theorem unary (op : UnaryOp) : V.Forms rules (unary op f) width (op.apply width a) := by
  have hlawful : (Call.unary op f).plain.Lawful := hf.word
  refine (call hlawful trivial (.unary hf.takes) fun hv => ?_).of_eq hf.width_eq rfl
  simp only [plain, eval, hf.width_eq, hf.eval_eq hv]

theorem extract {high low : Nat} (hle : low ≤ high) (hlt : high < width) :
    V.Forms rules (extract high low f) (high - low + 1) (slice high low a) := by
  have hlim := hf.width_range.2
  exact of_denotes (.extract V.hereditary hf.means hle hlt (by omega)) fun hv => by
    rw [hf.eval_eq hv]

theorem concat (hg : V.Gives g width' b) (hlim : width + width' ≤ limit) :
    V.Forms rules (concat f g) (width + width') (join width' a b) := by
  have hpos := hf.width_range.1
  exact of_denotes (.concat V.hereditary hf.means hg.means (by omega) hlim) fun hv => by
    rw [hf.eval_eq hv, hg.eval_eq hv]

theorem zeroExtend (hle : width ≤ wide) (hlim : wide ≤ limit) :
    V.Forms rules (zeroExtend wide f) wide a := by
  have hlawful : (Call.zeroExtend wide f).plain.Lawful := ⟨hf.width_eq ▸ hle, hlim, hf.word⟩
  refine call hlawful trivial (.zeroExtend hf.takes) fun hv => ?_
  simp only [plain, eval, hf.eval_eq hv]

theorem signExtend (hle : width ≤ wide) (hlim : wide ≤ limit) :
    V.Forms rules (signExtend wide f) wide (signExtend width wide a) := by
  have hlawful : (Call.signExtend wide f).plain.Lawful := ⟨hf.width_eq ▸ hle, hlim, hf.word⟩
  refine call hlawful trivial (.signExtend hf.takes) fun hv => ?_
  simp only [plain, eval, hf.width_eq, hf.eval_eq hv]

/-- A word in another width: zeros above it, or its low bits. -/
theorem resize {other : Nat} (h : WordWidth other) :
    V.Forms rules (resize f other) other (truncate other a) := by
  have hlt := hf.lt
  have hpos : other ≠ 0 := Nat.one_le_iff_ne_zero.1 h.1
  have hkept : width ≤ other → truncate other a = a := fun hle =>
    truncate_of_lt (lt_of_lt_of_le hlt (modulus_mono hle))
  unfold Build.resize Build.truncate
  rw [hf.width_eq]
  split
  · next hlt => exact (zeroExtend hf hlt.le h.2).of_eq rfl (hkept hlt.le).symm
  · split
    · next hgt =>
      rw [topIndex, if_neg hpos]
      have hwidth : other - 1 - 0 + 1 = other := by omega
      refine (extract hf (Nat.zero_le _) (by omega)).of_eq hwidth ?_
      rw [slice, hwidth, Nat.shiftRight_zero]
    · next hge hle =>
      obtain rfl : width = other := by omega
      exact (pure hf).of_eq rfl (hkept le_rfl).symm

end

theorem ite {c f g : Formula} {holds : Bool} (hc : V.Gives c 1 holds.toNat)
    (hf : V.Gives f width a) (hg : V.Gives g width b) :
    V.Forms rules (ite c f g) width (if holds then a else b) := by
  have hlawful : (Call.ite c f g).plain.Lawful :=
    ⟨hc.width_eq, hc.word, hf.width_eq.trans hg.width_eq.symm, hf.word.trans hg.word.symm⟩
  refine (call hlawful ⟨hf.word, hg.word⟩ (.ite hc.takes hf.takes hg.takes)
    fun hv => ?_).of_eq hf.width_eq rfl
  simp only [plain, eval, hc.eval_eq hv, hf.eval_eq hv, hg.eval_eq hv]
  cases holds <;> rfl

/-- Bytes that are built one by one, and put together to a word. -/
theorem ofBytes {part : ι → Build Formula} {byte : ι → UInt8}
    (h : ∀ i ∈ l, V.Forms rules (part i) 8 (byte i).toNat) (hpos : 1 ≤ l.length)
    (hmax : l.length ≤ maxBytes) :
    V.Forms rules (do
      let parts ← l.reverse.mapM part
      concatMany parts) (l.length * 8) (ofBytes (l.map byte)) := by
  have : Nonempty Formula := ⟨.constant 0 1⟩
  choose! f hf hgives using fun i hi => (h i hi).answers trivial
  refine (of_denotes (.number V.hereditary (fun i hi => .of_answers (hf i hi) (hgives i hi).means)
    hpos hmax) fun hv => ?_).of_eq (mul_comm _ _) rfl
  rw [ofBytes_eq_ofDigits, List.map_map]
  exact congrArg _ (List.map_congr_left fun i hi => (hgives i hi).eval_eq hv)

/-! Flags. -/

section

variable {f : Formula} {width value : Nat} (hf : V.Gives f width value)

include hf

theorem bit (hi : i < width) : V.Forms rules (Build.extract i i f) 1 (value.testBit i).toNat :=
  (extract hf le_rfl hi).of_eq (by omega) (slice_self i value)

theorem sign : V.Forms rules (Flags.sign f) 1 (value.testBit (width - 1)).toNat := by
  have hpos := hf.width_range.1
  unfold Flags.sign
  rw [hf.width_eq, minus_of_le hpos, pure_bind]
  exact bit hf (by omega)

theorem isZero : V.Forms rules (Flags.isZero f) 1 (value == 0).toNat := by
  unfold Flags.isZero
  rw [hf.width_eq]
  exact (zero hf.width_range).bind fun z hz => compare hf .eq hz

end

section

variable {differ left right result : Formula} {width a b c : Nat} (hc : c ≤ 1)
  (hleft : V.Gives left width a) (hright : V.Gives right width b)

include hc hleft hright

theorem carry {kind : Flags.Kind} (hdiffer : V.Gives differ width (xor width a b))
    (hresult : V.Gives result width (combined kind width a b c)) :
    V.Forms rules (Flags.carry kind differ left right result) 1
      (Status.combined kind width a b c).carry.toNat := by
  obtain ⟨hpos, hlim⟩ := hleft.width_range
  have htop : width - 1 < width := by omega
  cases kind with
  | sum =>
    refine (arith hleft .and hright).bind fun both hboth => ?_
    refine (arith hdiffer .xor hresult).bind fun changed hchanged => ?_
    refine (arith hchanged .and hdiffer).bind fun passed hpassed => ?_
    refine (arith hboth .xor hpassed).bind fun out hout => (sign hout).of_eq rfl ?_
    rw [Status.combined, ← Status.ofSum_carry hlim hleft.lt hright.lt hc hpos]
    simp only [apply, combined, testBit_xor hlim htop, testBit_and hlim htop]
  | difference =>
    refine (arith hdiffer .xor hresult).bind fun changed hchanged => ?_
    refine (arith hleft .xor hresult).bind fun moved hmoved => ?_
    refine (arith hmoved .and hdiffer).bind fun passed hpassed => ?_
    refine (arith hchanged .xor hpassed).bind fun out hout => (sign hout).of_eq rfl ?_
    rw [Status.combined, ← Status.ofDifference_carry hlim hleft.lt hright.lt hc hpos]
    simp only [apply, combined, testBit_xor hlim htop, testBit_and hlim htop]

theorem overflow {kind : Flags.Kind} (hdiffer : V.Gives differ width (xor width a b))
    (hresult : V.Gives result width (combined kind width a b c)) :
    V.Forms rules (Flags.overflow kind differ left right result) 1
      (Status.combined kind width a b c).overflow.toNat := by
  obtain ⟨hpos, hlim⟩ := hleft.width_range
  have htop : width - 1 < width := by omega
  cases kind with
  | sum =>
    refine (unary hright .not).bind fun inverse hinverse => ?_
    refine (arith hleft .xor hinverse).bind fun alike halike => ?_
    refine (arith hleft .xor hresult).bind fun moved hmoved => ?_
    refine (arith halike .and hmoved).bind fun out hout => (sign hout).of_eq rfl ?_
    rw [← Status.combined_overflow hlim hleft.lt hright.lt hc _ hpos]
    simp [apply, UnaryOp.apply, combined, testBit_xor hlim htop, testBit_and hlim htop,
      testBit_not hlim htop]
  | difference =>
    refine (arith hleft .xor hresult).bind fun moved hmoved => ?_
    refine (arith hdiffer .and hmoved).bind fun out hout => (sign hout).of_eq rfl ?_
    rw [← Status.combined_overflow hlim hleft.lt hright.lt hc _ hpos]
    simp [apply, combined, testBit_xor hlim htop, testBit_and hlim htop]

end

end Forms

end View

end Concolic
