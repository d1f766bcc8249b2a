import Concolic.Proofs.DoubleWidth

/-
  Division.

  A division of the accumulator and its upper half is at fault if the divisor is zero or
  the quotient does not fit into a word, and then leaves nothing behind. Otherwise it
  leaves the quotient, rounded toward zero, in the accumulator, and the remainder in the
  upper half.
-/

namespace Concolic

open Word X86 Step Engine

/-! Quotients and remainders of words. -/

namespace Word

section

variable {width wide a b : Nat} {signed : Bool}

/-- The quotient and the remainder of words are the words of the quotient and the
remainder of their numbers. -/
theorem apply_division (hle : width ≤ wide) (hb : b < modulus width)
    (hne : number signed width b ≠ 0) :
    (if signed then ArithOp.sdiv else .udiv).apply wide a (wrap wide (number signed width b)) =
      wrap wide ((number signed wide a).tdiv (number signed width b)) ∧
    (if signed then ArithOp.srem else .urem).apply wide a (wrap wide (number signed width b)) =
      wrap wide ((number signed wide a).tmod (number signed width b)) := by
  cases signed with
  | true =>
    have hdivisor : signed wide (wrap wide (signed width b)) = signed width b :=
      signed_signExtend hle b
    have hzero : ¬ signed width b = 0 := hne
    constructor
    · show sdiv wide a (wrap wide (signed width b)) = _
      rw [sdiv, hdivisor, if_neg hzero]
      rfl
    · show srem wide a (wrap wide (signed width b)) = _
      rw [srem, hdivisor, if_neg hzero]
      rfl
  | false =>
    have hdivisor : wrap wide (b : Int) = b :=
      (wrap_natCast wide b).trans (truncate_of_lt (lt_of_lt_of_le hb (modulus_mono hle)))
    have hzero : ¬ b = 0 := by
      rintro rfl
      exact hne rfl
    constructor
    · show udiv wide a (wrap wide (b : Int)) = wrap wide ((a : Int).tdiv b)
      rw [hdivisor, udiv, if_neg hzero, ← Int.ofNat_tdiv, wrap_natCast]
    · show urem wide a (wrap wide (b : Int)) = wrap wide ((a : Int).tmod b)
      rw [hdivisor, urem, if_neg hzero, ← Int.ofNat_tmod, wrap_natCast]

end

end Word

namespace X86

def bound (signed : Bool) (width : Nat) : Nat :=
  if signed then 2 ^ (width - 1) else ones width

section

variable {width a b : Nat} {signed : Bool}

/-- The check of a signed quotient is right also where the quotient leaves the wider word:
the least number divided by minus one. -/
theorem fits_signed (hpos : 1 ≤ width) (hlim : width * 2 ≤ limit) (d : Int) :
    fits true width (bound true width) (wrap (width * 2) ((Word.signed (width * 2) a).tdiv d)) =
      Word.fits true width ((Word.signed (width * 2) a).tdiv d) := by
  have hhalf := modulus_eq_double (by omega : 1 ≤ width * 2) hlim
  have hbound : 2 ^ (width - 1) < 2 ^ (width * 2 - 1) := Nat.pow_lt_pow_right (by decide) (by omega)
  have hrange := signed_range (width * 2) a
  have habs := Int.natAbs_tdiv_le_natAbs (signed (width * 2) a) d
  -- the quotient lies between the greatest and the least number, or is one more
  generalize (signed (width * 2) a).tdiv d = q at *
  rcases Int.lt_or_le (2 * q) (modulus (width * 2)) with hlt | hge
  · have hsame := signed_wrap (by omega) hlt
    simp only [fits, hsame]
    rfl
  · have hwrap : wrap (width * 2) q = wrap (width * 2) (-q) := by
      rw [wrap_eq_iff, ← Int.sub_emod_right]
      congr 1
      omega
    have hleast := @signed_wrap (width * 2) (-q) (by omega) (by omega)
    simp only [fits, bound, Word.fits, fitsSigned, hwrap]
    push_cast
    have hcast : ((2 : Int) ^ (width - 1)) < 2 ^ (width * 2 - 1) := by exact_mod_cast hbound
    rw [hhalf] at hge
    push_cast at hge
    rw [decide_eq_false (by omega), decide_eq_false (by omega)]

theorem fits_unsigned (hlim : width * 2 ≤ limit) (ha : a < modulus (width * 2)) :
    fits false width (bound false width) (wrap (width * 2) ((a : Int).tdiv b)) =
      Word.fits false width ((a : Int).tdiv b) := by
  have hle : a / b < modulus (width * 2) := lt_of_le_of_lt (Nat.div_le_self a b) ha
  have hpos := Nat.two_pow_pos width
  rw [← Int.ofNat_tdiv, wrap_natCast, truncate_of_lt hle]
  generalize a / b = q
  simp only [fits, bound, Word.fits, ones, Bool.false_eq_true, if_false,
    modulus_eq (by omega : width ≤ limit)]
  rw [decide_eq_decide]
  have hcast : ((q : Int) < 2 ^ width) ↔ q < 2 ^ width := by exact_mod_cast Iff.rfl
  omega

theorem fits_quotient (hpos : 1 ≤ width) (hlim : width * 2 ≤ limit) (ha : a < modulus (width * 2)) :
    fits signed width (bound signed width) (wrap (width * 2)
      ((number signed (width * 2) a).tdiv (number signed width b))) =
    Word.fits signed width ((number signed (width * 2) a).tdiv (number signed width b)) := by
  cases signed with
  | true => exact fits_signed hpos hlim _
  | false => exact fits_unsigned hlim ha

end

end X86

/-! Runs. -/

/-- The quotient and the remainder of a dividend of twice the width. -/
theorem View.Forms.quotient {V : View} {rules : Rules} {dividend divisor : Formula}
    {width a b : Nat} (signed : Bool) (hdividend : V.Gives dividend (width * 2) a)
    (hdivisor : V.Gives divisor width b) (hne : number signed width b ≠ 0) :
    Build.Makes rules True (quotient signed width dividend divisor) fun p =>
      V.Gives p.1 (width * 2) (wrap (width * 2)
        ((number signed (width * 2) a).tdiv (number signed width b))) ∧
      V.Gives p.2 (width * 2) (wrap (width * 2)
        ((number signed (width * 2) a).tmod (number signed width b))) := by
  have hle : width ≤ width * 2 := by omega
  obtain ⟨hquotient, hremainder⟩ := apply_division (a := a) hle hdivisor.lt hne
  have hextend : V.Forms rules _ _ _ := extend signed hdivisor hle hdividend.width_range.2
  cases signed with
  | true =>
    refine Build.Makes.bind hextend fun wide hwide => ?_
    refine Build.Makes.bind (arith hdividend .sdiv hwide) fun q hq => ?_
    refine Build.Makes.bind (arith hdividend .srem hwide) fun r hr => .pure ⟨?_, ?_⟩
    · exact hquotient ▸ hq
    · exact hremainder ▸ hr
  | false =>
    refine Build.Makes.bind hextend fun wide hwide => ?_
    refine Build.Makes.bind (arith hdividend .udiv hwide) fun q hq => ?_
    refine Build.Makes.bind (arith hdividend .urem hwide) fun r hr => .pure ⟨?_, ?_⟩
    · exact hquotient ▸ hq
    · exact hremainder ▸ hr

namespace Scene

variable {S : Scene} {m : Machine} {s : Frame} {width : Nat} {low high : Register}

theorem At.dividend (h : S.At m s) (hx86 : S.arch.isX86 = true)
    (hholds : Holds S.arch width low high) :
    s.Makes True (dividend width ⟨low.id, high.id⟩) fun f =>
      S.view.Gives f (width * 2) (m.wide low high) := by
  obtain ⟨hlowBits, hhighBits⟩ := hholds.bits hx86
  obtain ⟨hlowPlain, hhighPlain⟩ := hholds.plain hx86
  have hlim := hholds.range.2
  unfold X86.dividend
  split
  · next hwidth =>
    obtain ⟨whole, hwhole, hplain, hbits, hvalue⟩ := hholds.whole hx86 hwidth
    have hread := h.readRegisterId hwhole
    rw [registerValue_plain hplain, hvalue, hbits] at hread
    exact hread
  · refine (h.readRegisterId hholds.high).bind fun upper hupper => ?_
    refine (h.readRegisterId hholds.low).bind fun lower hlower => ?_
    rw [registerValue_plain hhighPlain, hhighBits] at hupper
    rw [registerValue_plain hlowPlain, hlowBits] at hlower
    have hforms : ∀ rules, S.view.Forms rules (Build.concat upper lower) (width * 2)
        (m.wide low high) := by
      refine fun rules => (View.Forms.concat hupper hlower (by omega)).of_eq (by omega) ?_
      rw [join_eq (by omega) hlower.lt, Machine.wide, hlowBits]
    exact .build (hforms _) fun _ => rfl

theorem makes_quotientBound (s : Frame) (signed : Bool) (hpos : 1 ≤ width) (hlim : width ≤ limit) :
    s.Makes True (quotientBound signed width) (· = bound signed width) := by
  cases signed with
  | false => exact .pure rfl
  | true =>
    have hshift : shiftLeft 1 (width - 1) = pure (2 ^ (width - 1)) := by
      have hlt : 2 ^ (width - 1) < modulus limit := by
        exact Nat.pow_lt_pow_right (by decide) (by omega)
      rw [shiftLeft, if_pos (by omega), Nat.one_shiftLeft, truncate_of_lt hlt]
    refine Frame.Makes.bind (.build (Build.makes_minus _ hpos) fun _ => rfl) fun top htop => ?_
    subst htop
    rw [hshift]
    exact .pure rfl

section

variable (hx86 : S.arch.isX86 = true) (hholds : X86.Holds S.arch width low high) {src : Operand}
  (hfirst : S.code.operands[0]? = some src) (hsrc : src.Target S.arch width) {signed : Bool}
  {D d : Int} (hD : Word.number signed (width * 2) (m.wide low high) = D)
  (hd : Word.number signed width (S.code.operandValue S.arch m width src) = d)

include hx86 hholds hsrc

include hfirst hD hd

/-- A division that is at fault only builds formulas. -/
theorem At.divide_faults (h : S.At m s) (hfault : d = 0 ∨ fits signed width (D.tdiv d) = false) :
    s.Makes True (divide signed) (· = some .divideError) := by
  obtain ⟨hwide, hlim⟩ := hholds.range
  have hrange : Formula.WordWidth width := ⟨by omega, by omega⟩
  refine (h.operand hfirst).bind fun found hfound => ?_
  subst hfound
  rw [hsrc.bits, hholds.halves]
  refine Frame.Makes.bind (.pure rfl) fun pair hpair => ?_
  subst hpair
  refine (h.read hsrc.1 hsrc.bits hrange).bind fun divisor hdivisor => ?_
  refine (h.evaluate hdivisor).bind fun value hvalue => ?_
  subst hvalue
  have hzero := number_eq_zero signed hdivisor.lt
  rw [hd] at hzero
  split
  · exact .pure rfl
  · next hne =>
    have hfits := hfault.resolve_left (hzero.not.2 hne)
    unfold divideBy
    rw [hsrc.bits]
    refine (h.dividend hx86 hholds).bind fun whole hwhole => ?_
    refine Frame.Makes.bind (.build (View.Forms.quotient signed hwhole hdivisor
      (hd ▸ hzero.not.2 hne)) fun _ => rfl) fun p hp => ?_
    refine (makes_quotientBound s signed hrange.1 hrange.2).bind fun bound hbound => ?_
    refine (h.evaluate hp.1).bind fun q hq => ?_
    rw [hbound, hq, fits_quotient hrange.1 hlim hwhole.lt, hD, hd, hfits]
    exact .pure rfl

/-- A division that is not at fault leaves the quotient and the remainder. -/
theorem Leads.divide (hne : d ≠ 0) (hfits : fits signed width (D.tdiv d) = true) :
    S.Leads m (divide signed) (((m.setRegister low (wrap width (D.tdiv d))).setRegister
      high (wrap width (D.tmod d))).past S.arch S.code) fun _ => (· = none) := by
  obtain ⟨hwide, hlim⟩ := hholds.range
  have hrange : Formula.WordWidth width := ⟨by omega, by omega⟩
  obtain ⟨hlowBits, hhighBits⟩ := hholds.bits hx86
  obtain ⟨hlowPlain, hhighPlain⟩ := hholds.plain hx86
  refine (Runs.operand hfirst).then_eq ?_
  rw [hsrc.bits]
  refine (Runs.halves hholds).then_eq ?_
  refine (Runs.read hsrc.1 hsrc.bits hrange).then fun divisor hdivisor => ?_
  refine (Runs.evaluate hdivisor).then_eq ?_
  have hzero := number_eq_zero signed hdivisor.lt
  rw [hd] at hzero
  rw [if_neg (hzero.not.1 hne)]
  unfold divideBy
  rw [hsrc.bits]
  refine (Runs.of_makes fun _ hs => hs.dividend hx86 hholds).then fun whole hwhole => ?_
  refine Runs.then (Runs.of_makes fun _ _ => .build (View.Forms.quotient signed hwhole
    hdivisor (hd ▸ hne)) fun _ => rfl) fun p hp => ?_
  refine (Runs.of_makes fun s _ => makes_quotientBound s signed hrange.1 hrange.2).then
    fun bound hbound => ?_
  refine (Runs.evaluate hp.1).then fun q hq => ?_
  rw [hbound, hq, fits_quotient hrange.1 hlim hwhole.lt]
  rw [hD, hd] at hp ⊢
  rw [hfits]
  refine complete ?_
  unfold writeQuotient
  rw [hsrc.bits]
  refine (Runs.anyRegisterTainted ?_).then fun halvesTainted _ => ?_
  · simp only [List.mem_cons, List.not_mem_nil, or_false]
    rintro id (rfl | rfl)
    · exact Option.isSome_iff_exists.2 ⟨low, hholds.low⟩
    · exact Option.isSome_iff_exists.2 ⟨high, hholds.high⟩
  refine (Runs.isTainted _).then fun srcTainted _ => ?_
  refine (Runs.minus hrange.1).then_eq ?_
  refine form (.lowHalf hp.1 hrange.1 (by omega)) fun quotient hquotient => ?_
  refine form (.lowHalf hp.2 hrange.1 (by omega)) fun rest hrest => ?_
  refine (Runs.writePlain hholds.low hlowPlain (hlowBits.symm ▸ hquotient) _ _).then fun _ _ => ?_
  refine (Runs.writePlain hholds.high hhighPlain (hhighBits.symm ▸ hrest) _ _).then fun _ _ => ?_
  rw [hlowBits, hhighBits]
  exact undefineAll fun id hid => isFlag hx86 hid

end

end Scene

/-! Whole instructions. -/

/-- The remainder has the sign of the dividend, and is less than the divisor. -/
theorem Word.tmod_spec (a : Int) {b : Int} (h : b ≠ 0) :
    (a.tmod b).natAbs < b.natAbs ∧ (a.tmod b = 0 ∨ (a.tmod b).sign = a.sign) := by
  constructor
  · rw [Int.natAbs_tmod]
    exact Nat.mod_lt _ (Int.natAbs_pos.2 h)
  · have hsign := Int.sign_tmod a b
    split at hsign
    · exact .inl (Int.sign_eq_zero_iff_zero.1 hsign)
    · exact .inr hsign

theorem Word.fits_tmod {signed : Bool} {width wide a b : Nat} (hpos : 1 ≤ width)
    (hw : width ≤ limit) (hb : b < modulus width) (hne : number signed width b ≠ 0) :
    fits signed width ((number signed wide a).tmod (number signed width b)) = true := by
  have hless := (tmod_spec (number signed wide a) hne).1
  cases signed with
  | true =>
    have hrange := signed_range width b
    have hnumber : number true width b = signed width b := rfl
    refine (fitsSigned_iff hpos hw).2 ?_
    omega
  | false =>
    have hnumber : number false width b = (b : Int) := rfl
    have hnonneg := Int.tmod_nonneg (number false width b)
      (Int.natCast_nonneg a : 0 ≤ number false wide a)
    have hhigh : (b : Int) < 2 ^ width := by
      rw [modulus_eq hw] at hb
      exact_mod_cast hb
    refine decide_eq_true ⟨hnonneg, ?_⟩
    omega

/-- Division is exact, and its faults leave nothing behind. In a coherent engine, with the
number `D` in the accumulator and its upper half and the divisor `d`, a division is at
fault just if `d` is zero or the quotient does not fit, and then nothing changes but the
pool of formulas. Otherwise the accumulator gets the quotient and the upper half gets the
remainder, each written as its register is. -/
theorem division_is_exact {e : Engine} (hcoherent : e.Coherent)
    (harray : e.modes.isOn .memoryArray = false) (hwhole : e.modes.isOn .alignedMemory = false)
    (hx86 : e.arch.isX86 = true) {inst : Instruction}
    (hops : ∀ op ∈ inst.operands, op.Resolves e.arch) {signed : Bool}
    (hop : X86.operation? inst.opcode = some (.divide signed)) {src : Operand}
    (hfirst : inst.operands[0]? = some src) {width : Nat} {low high : Register}
    (hholds : X86.Holds e.arch width low high) (hsrc : src.Target e.arch width) {D d : Int}
    (hD : Word.number signed (width * 2) (e.machine.wide low high) = D)
    (hd : Word.number signed width (inst.argument e.arch e.machine width src) = d) :
    ((∃ s', Step.process ⟨e, inst⟩ = .ok (some .divideError) s') ↔
      d = 0 ∨ Word.fits signed width (D.tdiv d) = false) ∧
    (∀ s', Step.process ⟨e, inst⟩ = .ok (some .divideError) s' →
      ∃ pool, s'.engine = e.withPool pool ∧ s'.instruction.expressions = #[]) ∧
    (d ≠ 0 → Word.fits signed width (D.tdiv d) = true →
      ∃ s' q r, Step.process ⟨e, inst⟩ = .ok none s' ∧
        D = q * d + r ∧ r.natAbs < d.natAbs ∧ (r = 0 ∨ r.sign = D.sign) ∧
        (signed = false → 0 ≤ r) ∧
        Word.number signed width (s'.machine.register low) = q ∧
        Word.number signed width (s'.machine.register high) = r ∧
        Machine.Alike e.arch (((e.machine.setRegister low (Word.wrap width q)).setRegister high
          (Word.wrap width r)).setRegister e.arch.programCounter
            (Word.truncate e.arch.programCounter.bits inst.fallThrough.toNat))
          s'.machine) := by
  have hshows : (e.present hcoherent.bounded False).Shows e :=
    hcoherent.shows False.elim harray hwhole
  have hsemantics : e.arch.semantics? inst.opcode = some (X86.divide signed) := by
    rw [semantics?_x86 hx86, hop, Option.map_some]
    rfl
  have hplaced : (e.scene (e.present hcoherent.bounded False) inst).code.operands[0]? =
      some (inst.placed e.arch e.machine src) := by
    simp only [Engine.scene, List.getElem?_map, hfirst, Option.map_some]
  have htarget := hsrc.placed (m := e.machine) inst
  obtain ⟨hwide, hlim⟩ := hholds.range
  have hlt := inst.argument_lt hsrc.1 ⟨by omega, by omega⟩ e.machine
  have hfaults : d = 0 ∨ Word.fits signed width (D.tdiv d) = false →
      ∃ s' pool, Step.process ⟨e, inst⟩ = .ok (some .divideError) s' ∧
        s'.engine = e.withPool pool ∧ s'.instruction.expressions = #[] := fun hfault =>
    Engine.process_faults hshows hsemantics hops fun s hs =>
      hs.divide_faults hx86 hholds hplaced htarget hD hd hfault
  have hcompletes : d ≠ 0 → Word.fits signed width (D.tdiv d) = true →
      ∃ s', Step.process ⟨e, inst⟩ = .ok none s' ∧ Machine.Alike e.arch
        (((e.machine.setRegister low (Word.wrap width (D.tdiv d))).setRegister high
          (Word.wrap width (D.tmod d))).setRegister e.arch.programCounter
            (Word.truncate e.arch.programCounter.bits inst.fallThrough.toNat))
        s'.machine := fun hne hfits => by
    obtain ⟨s', hrun, -, halike, -⟩ := Engine.process_leads hshows hsemantics hops
      (Scene.Leads.divide hx86 hholds hplaced htarget hD hd hne hfits)
    exact ⟨s', hrun, halike⟩
  have hiff : (∃ s', Step.process ⟨e, inst⟩ = .ok (some .divideError) s') ↔
      d = 0 ∨ Word.fits signed width (D.tdiv d) = false := by
    constructor
    · rintro ⟨s', hfault⟩
      by_contra hnone
      obtain ⟨hne, hfits⟩ := not_or.1 hnone
      obtain ⟨s'', hrun, -⟩ := hcompletes hne (Bool.not_eq_false _ ▸ hfits)
      rw [hfault] at hrun
      cases hrun
    · intro hfault
      obtain ⟨s', pool, hrun, -⟩ := hfaults hfault
      exact ⟨s', hrun⟩
  refine ⟨hiff, fun s' hfault => ?_, fun hne hfits => ?_⟩
  · obtain ⟨s'', pool, hrun, hengine, hnone⟩ := hfaults (hiff.1 ⟨s', hfault⟩)
    rw [hfault] at hrun
    cases hrun
    exact ⟨pool, hengine, hnone⟩
  · obtain ⟨s', hrun, halike⟩ := hcompletes hne hfits
    obtain ⟨hlow, hhigh⟩ := hholds.register_writes hx86 e.machine
      (Word.wrap_lt width (D.tdiv d)) (Word.wrap_lt width (D.tmod d))
    obtain ⟨hlowCounter, hhighCounter⟩ := hholds.register_setCounter hx86
      ((e.machine.setRegister low (Word.wrap width (D.tdiv d))).setRegister high
        (Word.wrap width (D.tmod d)))
      (Word.truncate e.arch.programCounter.bits inst.fallThrough.toNat)
    obtain ⟨hless, hsign⟩ := Word.tmod_spec D hne
    refine ⟨s', D.tdiv d, D.tmod d, hrun, (Int.tdiv_mul_add_tmod D d).symm, hless, hsign, ?_, ?_,
      ?_, halike⟩
    · rintro rfl
      exact Int.tmod_nonneg d (hD ▸ Int.natCast_nonneg _)
    · rw [← halike.register hholds.low, hlowCounter, hlow]
      exact Word.number_wrap signed (by omega) (by omega) hfits
    · rw [← halike.register hholds.high, hhighCounter, hhigh]
      subst hD hd
      exact Word.number_wrap signed (by omega) (by omega)
        (Word.fits_tmod (by omega) (by omega) hlt hne)

def divideByte : Instruction := .decoded 0x400007 7 37 [.memory (.fixed 0x1000 8)] ""

theorem divideByte_resolves (arch : Architecture) : ∀ op ∈ divideByte.operands, op.Resolves arch :=
  Instruction.decoded_one (Operand.resolves_fixed arch _ _)

/-- Seven by minus two is minus three, with a remainder of one; and 129 by minus one, the
first number that is too small, is a fault. -/
theorem division_is_exact_divideByte :
    (∃ s', Step.process ⟨X86.symbolicBytes 0xfe 7, divideByte⟩ = .ok none s' ∧
      Word.number true 8 (s'.machine.register X86.accumulatorByte) = -3 ∧
      Word.number true 8 (s'.machine.register X86.upperByte) = 1) ∧
    ∃ s' pool, Step.process ⟨X86.symbolicBytes 0xff 129, divideByte⟩ = .ok (some .divideError) s' ∧
      s'.engine = (X86.symbolicBytes 0xff 129).withPool pool ∧
      s'.instruction.expressions = #[] := by
  constructor
  · obtain ⟨hagrees, harch⟩ := X86.symbolicBytes_agrees 0xfe 7
    obtain ⟨s', q, r, hrun, hdivides, hless, hsign, -, hq, hr, -⟩ := (division_is_exact
      hagrees.coherent hagrees.noArray (by decide +kernel) (by rw [harch]; rfl)
      (divideByte_resolves _)
      (by decide +kernel : X86.operation? divideByte.opcode = some (.divide true)) rfl
      (by rw [harch]; exact X86.holds_bytes) ⟨⟨rfl, rfl⟩, rfl⟩ (D := 7) (d := -2)
      (by decide +kernel) (by decide +kernel)).2.2 (by decide) (by decide)
    have hnonneg : 0 ≤ r := by
      rcases hsign with rfl | hsign
      · exact le_rfl
      · exact (Int.sign_eq_one_iff_pos.1 hsign).le
    exact ⟨s', hrun, hq.trans (by omega), hr.trans (by omega)⟩
  · obtain ⟨hagrees, harch⟩ := X86.symbolicBytes_agrees 0xff 129
    obtain ⟨hfault, hstill, -⟩ := division_is_exact hagrees.coherent hagrees.noArray
      (by decide +kernel) (by rw [harch]; rfl) (divideByte_resolves _)
      (by decide +kernel : X86.operation? divideByte.opcode = some (.divide true)) rfl
      (by rw [harch]; exact X86.holds_bytes) ⟨⟨rfl, rfl⟩, rfl⟩ (D := 129) (d := -1)
      (by decide +kernel) (by decide +kernel)
    obtain ⟨s', hrun⟩ := hfault.2 (.inr (by decide))
    obtain ⟨pool, hengine, hnone⟩ := hstill s' hrun
    exact ⟨s', pool, hrun, hengine, hnone⟩

end Concolic
