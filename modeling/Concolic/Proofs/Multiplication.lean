import Concolic.Proofs.DoubleWidth

/-
  Multiplication.

  A multiplication of the accumulator leaves the whole product in the accumulator and its
  upper half; one with a destination of its own leaves the product modulo the width there.
  Carry and overflow both say that the product does not fit into a word.
-/

namespace Concolic

open Machine X86 Word View Step Engine Instruction Operand X86

variable {P x : Int} {src : Operand} {p : Product} {high low : Register}

/-! Products of words. -/

namespace Word

variable {width a b : Nat} {signed : Bool}

theorem modulus_double (hlim : width * 2 ≤ limit) :
    modulus (width * 2) = modulus width * modulus width := by
  rw [modulus_eq hlim, modulus_eq (by omega), mul_two, pow_add]

theorem highHalf_lt (hlim : width * 2 ≤ limit) (ha : a < modulus (width * 2)) :
    a / 2 ^ width < modulus width := by
  rw [modulus_double hlim] at ha
  rw [← modulus_eq (by omega : width ≤ limit)]
  exact Nat.div_lt_of_lt_mul ha

theorem fits_mul (signed : Bool) (hpos : 1 ≤ width) (hlim : width * 2 ≤ limit)
    (ha : a < modulus width) (hb : b < modulus width) :
    fits signed (width * 2) (number signed width a * number signed width b) = true := by
  cases signed with
  | true =>
    have hra := signed_range width a
    have hrb := signed_range width b
    refine (fitsSigned_iff (by omega) hlim).2 ?_
    show -(modulus (width * 2) : Int) ≤ 2 * (signed width a * signed width b) ∧
      2 * (signed width a * signed width b) < modulus (width * 2)
    have habs : (2 * signed width a * (2 * signed width b)).natAbs ≤
        modulus width * modulus width := by
      rw [Int.natAbs_mul]
      exact Nat.mul_le_mul (by omega) (by omega)
    have hfour : 2 * signed width a * (2 * signed width b) =
        4 * (signed width a * signed width b) := by ring
    have hmodulus := modulus_pos (width * 2)
    rw [hfour, ← modulus_double hlim] at habs
    omega
  | false =>
    have hlt : a * b < modulus (width * 2) := by
      rw [modulus_double hlim]
      exact Nat.mul_lt_mul'' ha hb
    exact fits_number false (by omega) hlim hlt

/-- The part of a product above the word is zero if the product fits. -/
theorem highHalf_ne_zero (hlim : width * 2 ≤ limit) (hx : fits false (width * 2) x = true) :
    (wrap (width * 2) x / 2 ^ width != 0) = !fits false width x := by
  obtain ⟨hnonneg, hlt⟩ := of_decide_eq_true hx
  obtain ⟨n, rfl⟩ := Int.eq_ofNat_of_zero_le hnonneg
  have hn : n < modulus (width * 2) := by
    rw [modulus_eq hlim]
    exact_mod_cast hlt
  have hpow : ((n : Int) < 2 ^ width) ↔ n < 2 ^ width := by exact_mod_cast Iff.rfl
  have := Nat.two_pow_pos width
  rw [wrap_natCast, truncate_of_lt hn, Bool.eq_iff_iff, bne_iff_ne, Bool.not_eq_true', fits,
    if_neg Bool.false_ne_true, decide_eq_false_iff_not, Ne, Nat.div_eq_zero_iff]
  omega

/-- The low part of a product, extended by its sign, is the product if that fits. -/
theorem signExtend_low_ne (hpos : 1 ≤ width) (hlim : width * 2 ≤ limit)
    (hx : fits true (width * 2) x = true) :
    (signExtend width (width * 2) (wrap width x) != wrap (width * 2) x) = !fits true width x := by
  have hlow := fits_number true hpos (by omega) (wrap_lt width x)
  have hwide := signed_signExtend (by omega : width ≤ width * 2) (wrap width x)
  have hproduct : signed (width * 2) (wrap (width * 2) x) = x := number_wrap true (by omega) hlim hx
  rw [Bool.eq_iff_iff, bne_iff_ne, Bool.not_eq_true', ← Bool.not_eq_true, not_iff_not]
  constructor
  · intro hsame
    rw [hsame, hproduct] at hwide
    rw [hwide]
    exact hlow
  · intro hfits
    have hnumber : signed width (wrap width x) = x := number_wrap true hpos (by omega) hfits
    rw [signExtend, hnumber]

end Word

/-! Formulas. -/

namespace View.Forms

variable {V : View} {rules : Rules} {f g : Formula} {width a b : Nat}

theorem product (signed : Bool) (hf : V.Gives f width a) (hg : V.Gives g width b)
    (hlim : width * 2 ≤ limit) :
    V.Forms rules (product signed width f g) (width * 2)
      (wrap (width * 2) (number signed width a * number signed width b)) := by
  have hle : width ≤ width * 2 := by omega
  have hleft : V.Forms rules _ _ _ := extend signed hf hle hlim
  have hright : V.Forms rules _ _ _ := extend signed hg hle hlim
  rw [← mul_wrap]
  cases signed with
  | true =>
    exact hleft.bind fun x hx => hright.bind fun y hy => arith hx .mul hy
  | false =>
    exact hleft.bind fun x hx => hright.bind fun y hy => arith hx .mul hy

theorem highHalf (hf : V.Gives f (width * 2) a) (hpos : 1 ≤ width) :
    V.Forms rules (Build.extract (width * 2 - 1) width f) width (a / 2 ^ width) := by
  have hwidth : width * 2 - 1 - width + 1 = width := by omega
  refine (extract hf (by omega) (by omega)).of_eq hwidth ?_
  rw [slice, hwidth, Nat.shiftRight_eq_div_pow, truncate_of_lt (highHalf_lt hf.width_range.2 hf.lt)]

theorem productOverflow {p : Product} {x : Int} (signed : Bool) (hbits : p.bits = width)
    (hpos : 1 ≤ width) (hlim : width * 2 ≤ limit) (hx : Word.fits signed (width * 2) x = true)
    (hfull : V.Gives p.full (width * 2) (wrap (width * 2) x)) :
    V.Forms rules (p.overflow signed) 1 (!Word.fits signed width x).toNat := by
  unfold Product.overflow
  rw [hbits]
  cases signed with
  | true =>
    rw [if_pos rfl, Build.minus_of_le hpos, pure_bind]
    refine (lowHalf hfull hpos (by omega)).bind fun low hlow => ?_
    refine (signExtend hlow (by omega) hlim).bind fun extended hextended => ?_
    rw [← signExtend_low_ne hpos hlim hx]
    exact compare hextended .ne hfull
  | false =>
    rw [if_neg Bool.false_ne_true, Build.minus_of_le (by omega), pure_bind]
    refine (highHalf hfull hpos).bind fun high hhigh => ?_
    rw [← highHalf_ne_zero hlim hx]
    exact (zero hhigh.width_range).bind fun zero hzero => compare hhigh .ne hzero

end View.Forms

/-- The flags that a multiplication writes, in the order of their writes. -/
def X86.productWrites (b : Bool) : List (Nat × Bool) := [(cf, b), (of, b)]

/-! Runs. -/

namespace Scene

variable {S : Scene} {m : Machine} {width : Nat} {low high : Register}

/-- A product is the number in both halves. -/
theorem Runs.writeProduct (hx86 : S.arch.isX86 = true)
    (hholds : Holds S.arch width low high) {n : Nat} (hn : n < modulus (width * 2)) :
    ∃ m' : Machine, m'.wide low high = n ∧ ∀ {f : Formula}, S.view.Gives f (width * 2) n →
      ∀ comment tainted, S.Moves m (writeProduct width f comment tainted) m' := by
  obtain ⟨hlowBits, hhighBits⟩ := hholds.bits hx86
  obtain ⟨hlowPlain, hhighPlain⟩ := hholds.plain hx86
  obtain ⟨hwide, hlim⟩ := hholds.range
  by_cases hwidth : width = 8
  · obtain ⟨whole, hwhole, hplain, hbits, hvalue⟩ := hholds.whole hx86 hwidth
    have hhas := Architecture.has_of_register? hwhole
    refine ⟨m.setRegister whole n, ?_, fun hf comment tainted => ?_⟩
    · rw [← hvalue, register_setRegister_self hhas m (hbits.symm ▸ hn)]
    · refine (halves hholds).bind fun pair _ => ?_
      rw [if_pos hwidth, ← Architecture.register?_id hwhole]
      exact writePlain hhas hplain (hbits.symm ▸ hf) comment tainted
  · have hhalves := hholds.register_writes hx86 m (wrap_lt width n) (highHalf_lt hlim hn)
    refine ⟨(m.setRegister low (wrap width n)).setRegister high (n / 2 ^ width), ?_,
      fun hf comment tainted => ?_⟩
    · rw [wide, hhalves.1, hhalves.2, hlowBits, wrap_natCast, truncate,
        modulus_eq (by omega), mul_comm]
      exact Nat.div_add_mod n (2 ^ width)
    · have hwrap := wrap_number false hf.lt
      refine (halves hholds).bind_eq ?_
      rw [if_neg hwidth]
      refine (minus (by omega)).bind_eq ?_
      refine form (.lowHalf (hwrap.symm ▸ hf) (by omega) (by omega)) fun lower hlower => ?_
      refine (minus (by omega)).bind_eq ?_
      refine form (.highHalf hf (by omega)) fun upper hupper => ?_
      refine (writePlain hholds.low hlowPlain (hlowBits.symm ▸ hlower) _ _).seq ?_
      rw [hlowBits]
      exact writePlain hholds.high hhighPlain (hhighBits.symm ▸ hupper) _ _

/-- Carry and overflow are one flag of a multiplication; the others are undefined, and
keep their values. -/
theorem Leads.writeProductFlags (hx86 : S.arch.isX86 = true) {p : Product} (signed : Bool)
    (hpos : 1 ≤ width) (hlim : width * 2 ≤ limit)
    (hp : p.bits = width ∧ S.view.Gives p.full (width * 2) (wrap (width * 2) P) ∧
      fits signed (width * 2) P = true) :
    S.Leads m (writeProductFlags signed p)
      (m.setFlags S.arch (productWrites (!Word.fits signed width P))) fun _ _ => True := by
  refine form (.productOverflow signed hp.1 hpos hlim hp.2.2 hp.2.1) fun f hf => ?_
  have hflag : ∀ id ∈ statusFlags, S.arch.isFlag id = true := fun id => isFlag hx86
  refine (undefine (hflag af (by decide))).bind fun V _ hV _ => ?_
  refine (Runs.writeFlag (S := S.withView V) (hflag cf (by decide)) (hV.gives hf) _ _).then
    fun _ _ => ?_
  refine (Runs.writeFlag (S := S.withView V) (hflag of (by decide)) (hV.gives hf) _ _).then
    fun _ _ => ?_
  refine undefineAll (S := S.withView V) fun id hid => hflag id ?_
  have hsub : ∀ id ∈ [pf, sf, zf], id ∈ statusFlags := by decide
  exact hsub id hid

theorem Runs.multiplyAccumulator (hx86 : S.arch.isX86 = true) (hholds : Holds S.arch width low high)
    (hfirst : S.code.operands[0]? = some src) (hsrc : src.Fits S.arch width)
    (hbits : src.bits = width) (signed : Bool) (comment : String)
    (hP : number signed width (m.register low) *
      number signed width (S.code.operandValue S.arch m width src) = P) :
    ∃ m' : Machine, m'.wide low high = wrap (width * 2) P ∧
      S.Runs m (multiplyAccumulator signed comment) m' fun p => p.bits = width ∧
        S.view.Gives p.full (width * 2) (wrap (width * 2) P) ∧
        fits signed (width * 2) P = true := by
  obtain ⟨hwide, hlim⟩ := hholds.range
  have hrange : Formula.WordWidth width := ⟨by omega, by omega⟩
  obtain ⟨m', hproduct, hwrite⟩ := writeProduct (m := m) hx86 hholds (wrap_lt (width * 2) P)
  refine ⟨m', hproduct, ?_⟩
  refine (operand hfirst).bind_eq ?_
  rw [hbits]
  refine (halves hholds).bind_eq ?_
  refine (readRegisterId hholds.low).bind fun a ha => ?_
  rw [registerValue_plain (hholds.plain hx86).1, (hholds.bits hx86).1] at ha
  refine (read hsrc hbits hrange).bind fun b hb => ?_
  refine form (.product signed ha hb hlim) fun full hfull => ?_
  have hfits := fits_mul signed hrange.1 hlim ha.lt hb.lt
  rw [hP] at hfull hfits
  refine (isRegisterTainted hholds.low).bind fun accumulatorTainted _ => ?_
  refine (isTainted _).bind fun srcTainted _ => ?_
  exact (hwrite hfull _ _).bind fun _ _ => pure ⟨rfl, hfull, hfits⟩

theorem Runs.operandCount : S.Runs m operandCount m (· = S.code.operands.length) :=
  look fun s hs => by rw [hs.operands]

end Scene

/-- The operands of a multiplication with a destination of its own: its factors are the
destination and a source, or two sources. -/
structure X86.Multiplies (arch : Architecture) (width : Nat) (operands : List Operand)
    (dst left right : Operand) : Prop where
  factors : operands = [dst, right] ∧ left = dst ∨ operands = [dst, left, right]
  target : dst.Target arch width
  left : left.Fits arch width
  right : right.Fits arch width

namespace Scene

variable {S : Scene} {m : Machine} {width : Nat} {dst left right : Operand}

theorem Runs.factors (hmul : Multiplies S.arch width S.code.operands dst left right)
    (hrange : Formula.WordWidth width) :
    S.Runs m (factors S.code.operands.length width) m fun p =>
      S.view.Gives p.1 width (S.code.operandValue S.arch m width left) ∧
      S.view.Gives p.2.1 width (S.code.operandValue S.arch m width right) := by
  rcases hmul.factors with ⟨hlist, rfl⟩ | hlist
  · have hpair := readPair (m := m) (by rw [hlist]; rfl) (by rw [hlist]; rfl) hmul.target.1
      hmul.target.bits hmul.right hrange
    rw [hlist]
    refine hpair.bind fun p hp => ?_
    obtain ⟨-, -, hleft, hright⟩ := hp
    exact (pairTainted p).bind fun _ _ => pure ⟨hleft, hright⟩
  · have hsecond : S.Runs m (Step.operand 1) m (· = left) := operand (by rw [hlist]; rfl)
    have hthird : S.Runs m (Step.operand 2) m (· = right) := operand (by rw [hlist]; rfl)
    rw [hlist]
    refine hsecond.bind_eq (hthird.bind_eq ?_)
    refine (readSized hmul.left hrange).bind fun a ha => ?_
    refine (readSized hmul.right hrange).bind fun b hb => ?_
    exact (isTainted _).bind fun _ _ => pure ⟨ha, hb⟩

/-! Two or three operands. -/

section

variable (hmul : Multiplies S.arch width S.code.operands dst left right)
  (hpos : 1 ≤ width) (hlim : width * 2 ≤ limit) (hsteady : dst.memory? = none ∨ S.Steady)
  (hP : number true width (S.code.operandValue S.arch m width left) *
    number true width (S.code.operandValue S.arch m width right) = P)

include hmul hpos hlim hsteady hP

/-- The product of two operands goes to the first, modulo its width. -/
theorem Runs.multiplyInto : S.Runs m (multiplyInto S.code.operands.length)
    (m.store S.arch dst (wrap width P)) fun p => p.bits = width ∧
      S.view.Gives p.full (width * 2) (wrap (width * 2) P) ∧
      fits true (width * 2) P = true := by
  have hfirst : S.code.operands[0]? = some dst := by
    rcases hmul.factors with ⟨hlist, -⟩ | hlist <;> rw [hlist] <;> rfl
  refine (operand hfirst).bind_eq ?_
  rw [hmul.target.bits]
  refine (factors hmul ⟨hpos, by omega⟩).bind fun p hp => ?_
  obtain ⟨ha, hb⟩ := hp
  refine form (.product true ha hb hlim) fun full hfull => ?_
  have hfits := fits_mul true hpos hlim ha.lt hb.lt
  rw [hP] at hfull hfits
  refine (minus hpos).bind_eq ?_
  refine form (.lowHalf hfull hpos (by omega)) fun lower hlower => ?_
  exact (assign hmul.target hlower hsteady _ (taints_setTaint _ _)).bind
    fun _ _ => pure ⟨rfl, hfull, hfits⟩

theorem Leads.multiplyInto (hx86 : S.arch.isX86 = true) :
    S.Leads m imul ((m.store S.arch dst (wrap width P)).setFlags S.arch
      (productWrites (!Word.fits true width P))) fun _ _ => True := by
  have hcount : S.code.operands.length ≠ 1 := by
    rcases hmul.factors with ⟨hlist, -⟩ | hlist <;> simp [hlist]
  refine Runs.operandCount.then fun count hfound => ?_
  rw [hfound, if_neg hcount]
  exact (Runs.multiplyInto hmul hpos hlim hsteady hP).then fun p hp =>
    writeProductFlags hx86 true hpos hlim hp

end

variable {low high : Register} {src : Operand}

theorem Leads.multiplyWide (hx86 : S.arch.isX86 = true) (hholds : Holds S.arch width low high)
    (honly : S.code.operands = [src]) (hsrc : src.Fits S.arch width) (hbits : src.bits = width)
    (signed : Bool) (hP : number signed width (m.register low) *
      number signed width (S.code.operandValue S.arch m width src) = P) :
    ∃ m' : Machine, m'.wide low high = wrap (width * 2) P ∧
      S.Leads m (if signed then imul else mul)
        (m'.setFlags S.arch (productWrites (!Word.fits signed width P)))
        fun _ _ => True := by
  obtain ⟨hwide, hlim⟩ := hholds.range
  have hpos : 1 ≤ width := by omega
  have hfirst : S.code.operands[0]? = some src := by rw [honly]; rfl
  obtain ⟨m', hproduct, hrun⟩ := Runs.multiplyAccumulator hx86 hholds hfirst hsrc hbits signed
    (if signed then "IMUL operation" else "MUL operation") hP
  refine ⟨m', hproduct, ?_⟩
  cases signed with
  | false => exact hrun.then fun p hp => writeProductFlags hx86 false hpos hlim hp
  | true =>
    refine Runs.operandCount.then fun count hcount => ?_
    rw [hcount, honly]
    exact hrun.then fun p hp => writeProductFlags hx86 true hpos hlim hp

end Scene

/-! Whole instructions. -/

namespace X86

variable {arch : Architecture} (hx86 : arch.isX86 = true)

include hx86

theorem isFlag_productWrites (b : Bool) : ∀ p ∈ productWrites b, arch.isFlag p.1 = true :=
  isFlag_writes hx86 (by simp [productWrites, statusFlags])

/-- Carry and overflow are alike afterwards. -/
theorem flag_productWrites (m : Machine) (b : Bool) (next : Nat) {id : Nat} (hid : id ∈ [cf, of]) :
    ((m.setFlags arch (productWrites b)).setRegister arch.programCounter next).flag arch id =
      b := by
  have hflag : arch.isFlag id = true := by
    have hsub : ∀ id ∈ [cf, of], id ∈ statusFlags := by decide
    exact isFlag hx86 (hsub id hid)
  rw [flag_setCounter hflag, flag_setFlags (isFlag_productWrites hx86 b) hflag]
  simp only [List.mem_cons, List.not_mem_nil, or_false] at hid
  rcases hid with rfl | rfl <;> rfl

/-- Neither the flags nor the program counter have a part in the halves. -/
theorem Holds.wide_productWrites {width : Nat} (h : Holds arch width low high) (m : Machine)
    (b : Bool) (next : Nat) :
    ((m.setFlags arch (productWrites b)).setRegister arch.programCounter next).wide low high =
      m.wide low high := by
  obtain ⟨hlowBits, hhighBits⟩ := h.bits hx86
  have hwide := h.range.1
  obtain ⟨hlow, hhigh⟩ := h.register_setCounter hx86 (m.setFlags arch (productWrites b)) next
  have hflags := isFlag_productWrites hx86 b
  rw [wide, wide, hlow, hhigh,
    register_setFlags hflags h.low (by omega),
    register_setFlags hflags h.high (by omega)]

end X86

section

variable {e : Engine} {V : View} (hshows : V.Shows e) {inst : Instruction}
  (hops : ∀ op ∈ inst.operands, op.Resolves e.arch) (hx86 : e.arch.isX86 = true) {width : Nat}
  {P : Int}

include hshows hops hx86

theorem X86.process_multiplyWide {signed : Bool}
    (hop : operation? inst.opcode = some (if signed then .imul else .mul))
    (honly : inst.operands = [src]) (hsrc : src.Fits e.arch width) (hbits : src.bits = width)
    (hholds : Holds e.arch width low high) (hP : number signed width (e.machine.register low) *
      number signed width (inst.argument e.arch e.machine width src) = P) :
    ∃ (m' : Machine) (s' : Frame), m'.wide low high = wrap (width * 2) P ∧
      process ⟨e, inst⟩ = .ok none s' ∧
      Alike e.arch ((m'.setFlags e.arch (productWrites (!Word.fits signed width P))).past
        e.arch inst) s'.machine := by
  have hsemantics : e.arch.semantics? inst.opcode =
      some (complete (if signed then imul else mul)) := by
    rw [semantics?_x86 hx86, hop, Option.map_some]
    cases signed <;> rfl
  have hplaced : (e.scene V inst).code.operands = [inst.placed e.arch e.machine src] := by
    simp only [scene, honly, List.map_cons, List.map_nil]
  obtain ⟨m', hproduct, hleads⟩ := Scene.Leads.multiplyWide hx86 hholds hplaced
    (hsrc.placed inst) ((bits_placed inst).trans hbits) signed hP
  obtain ⟨s', hrun, -, halike, -⟩ := process_leads hshows hsemantics hops hleads.complete
  exact ⟨m', s', hproduct, hrun, halike⟩

theorem X86.process_multiplyInto {dst left right : Operand}
    (hop : operation? inst.opcode = some .imul)
    (hmul : Multiplies e.arch width inst.operands dst left right) (hpos : 1 ≤ width)
    (hlim : width * 2 ≤ limit)
    (hsteady : dst.memory? = none ∨ ∀ v byte, V.admits v → V.admits { v with byte })
    (hP : number true width (inst.argument e.arch e.machine width left) *
      number true width (inst.argument e.arch e.machine width right) = P) :
    ∃ s', process ⟨e, inst⟩ = .ok none s' ∧
      Alike e.arch (((e.machine.store e.arch (inst.placed e.arch e.machine dst)
        (wrap width P)).setFlags e.arch (productWrites (!Word.fits true width P))).past
          e.arch inst) s'.machine := by
  have hsemantics : e.arch.semantics? inst.opcode = some (complete imul) := by
    rw [semantics?_x86 hx86, hop, Option.map_some]
    rfl
  have hplaced : Multiplies e.arch width (e.scene V inst).code.operands
      (inst.placed e.arch e.machine dst) (inst.placed e.arch e.machine left)
      (inst.placed e.arch e.machine right) := by
    refine ⟨?_, hmul.target.placed inst, hmul.left.placed inst, hmul.right.placed inst⟩
    rcases hmul.factors with ⟨hlist, rfl⟩ | hlist
    · exact .inl ⟨by simp only [scene, hlist, List.map_cons, List.map_nil], rfl⟩
    · exact .inr (by simp only [scene, hlist, List.map_cons, List.map_nil])
  have hdst : (inst.placed e.arch e.machine dst).memory? = none ∨ (e.scene V inst).Steady :=
    hsteady.imp (memory?_placed inst) id
  obtain ⟨s', hrun, -, halike, -⟩ := process_leads hshows hsemantics hops
    (Scene.Leads.multiplyInto hplaced hpos hlim hdst hP hx86).complete
  exact ⟨s', hrun, halike⟩

end

/-- Multiplication is exact. In a coherent engine, a multiplication of the accumulator
leaves the product, of twice the width, in the accumulator and its upper half; one with a
destination leaves the product modulo the width there. The factors are what the operands
were before, and carry and overflow say alike that the product does not fit. Where the
destination is memory, no formula may read the memory that is written. -/
theorem multiplication_is_exact {e : Engine} (hcoherent : e.Coherent)
    (harray : e.modes.isOn .memoryArray = false) (hwhole : e.modes.isOn .alignedMemory = false)
    (hx86 : e.arch.isX86 = true) {inst : Instruction}
    (hops : ∀ op ∈ inst.operands, op.Resolves e.arch) (width : Nat) (P : Int) :
    (∀ (signed : Bool) (low high : Register) (src : Operand),
      operation? inst.opcode = some (if signed then .imul else .mul) →
      inst.operands = [src] → src.Fits e.arch width → src.bits = width →
      Holds e.arch width low high →
      Word.number signed width (e.machine.register low) *
        Word.number signed width (inst.argument e.arch e.machine width src) = P →
      ∃ s', Step.process ⟨e, inst⟩ = .ok none s' ∧
        Word.number signed (width * 2) (s'.machine.wide low high) = P ∧
        ∀ id ∈ [cf, of],
          s'.machine.flag e.arch id = !Word.fits signed width P) ∧
    (∀ dst left right : Operand,
      operation? inst.opcode = some .imul →
      Multiplies e.arch width inst.operands dst left right → 8 ≤ width → width ≤ 64 →
      dst.isCounter e.arch = false → (dst.memory? = none ∨ e.Steady) →
      Word.number true width (inst.argument e.arch e.machine width left) *
        Word.number true width (inst.argument e.arch e.machine width right) = P →
      ∃ s', Step.process ⟨e, inst⟩ = .ok none s' ∧
        inst.operandValue e.arch s'.machine width (inst.placed e.arch e.machine dst) =
          Word.wrap width P ∧
        ∀ id ∈ [cf, of],
          s'.machine.flag e.arch id = !Word.fits true width P) := by
  have hshows : (e.present hcoherent.bounded e.Steady).Shows e := hcoherent.shows id harray hwhole
  constructor
  · intro signed low high src hop honly hsrc hbits hholds hP
    obtain ⟨hwide, hlim⟩ := hholds.range
    obtain ⟨m', s', hproduct, hrun, halike⟩ := process_multiplyWide hshows hops hx86 hop honly
      hsrc hbits hholds hP
    have hlt : e.machine.register low < Word.modulus width := by
      rw [← (hholds.bits hx86).1]
      exact e.machine.register_lt low
    have hfits := Word.fits_mul signed (by omega) hlim hlt
      (inst.argument_lt hsrc ⟨by omega, by omega⟩ e.machine)
    have hafter : s'.machine.wide low high = Word.wrap (width * 2) P := by
      rw [Machine.wide, ← halike.register hholds.low, ← halike.register hholds.high,
        ← Machine.wide, hholds.wide_productWrites hx86, hproduct]
    refine ⟨s', hrun, ?_, fun id hid => ?_⟩
    · rw [hafter]
      exact Word.number_wrap signed (by omega) hlim (hP ▸ hfits)
    · rw [← halike.flag id]
      exact flag_productWrites hx86 m' _ _ hid
  · intro dst left right hop hmul hwide hle hcounter hdst hP
    have hlim : width * 2 ≤ Word.limit := by
      unfold Word.limit
      omega
    obtain ⟨s', hrun, halike⟩ := process_multiplyInto hshows hops hx86 hop hmul (by omega) hlim
      (hdst.imp id fun hs => Engine.present_steady hs) hP
    have htarget := hmul.target.placed (m := e.machine) inst
    have hplace := (Operand.isCounter_placed (m := e.machine) inst).trans hcounter
    refine ⟨s', hrun, ?_, fun id hid => ?_⟩
    · rw [← halike.operandValue inst htarget.1, Instruction.operandValue_setCounter inst hplace,
        Instruction.operandValue_setFlags inst (isFlag_productWrites hx86 _) htarget.1 (by omega)]
      exact Instruction.operandValue_store inst htarget hplace (isZero_eq hx86 _) (by omega)
        (Word.wrap_lt _ _)
    · rw [← halike.flag id]
      exact flag_productWrites hx86 _ _ _ hid

def multiplyByte : Instruction := .decoded 0x400007 7 38 [.memory (.fixed 0x1000 8)] ""

def multiplyMemory : Instruction :=
  .decoded 0x400007 7 38 [.memory (.fixed 0x1000 8), .register accumulatorByte] ""

theorem multiplyByte_resolves (arch : Architecture) :
    ∀ op ∈ multiplyByte.operands, op.Resolves arch :=
  decoded_one (resolves_fixed arch _ _)

theorem multiplyMemory_resolves (arch : Architecture) :
    ∀ op ∈ multiplyMemory.operands, op.Resolves arch := addByte_resolves arch

theorem multiplyMemory_factors : Multiplies .x86_64 8 multiplyMemory.operands
    (.memory (.fixed 0x1000 8)) (.memory (.fixed 0x1000 8)) (.register accumulatorByte) :=
  ⟨.inl ⟨rfl, rfl⟩, ⟨⟨rfl, rfl⟩, rfl⟩, ⟨rfl, rfl⟩, accumulatorByte_has, by decide +kernel⟩

/-- The least number of a byte times itself needs both halves, and is zero in one. -/
theorem multiplication_is_exact_least :
    (∃ s', Step.process ⟨symbolicBytes 0x80 0x80, multiplyByte⟩ = .ok none s' ∧
      Word.number true 16 (s'.machine.wide accumulatorByte upperByte) = 16384 ∧
      s'.machine.flag .x86_64 of = true) ∧
    ∃ s', Step.process ⟨symbolicBytes 0x80 0x80, multiplyMemory⟩ = .ok none s' ∧
      multiplyMemory.operandValue .x86_64 s'.machine 8 (.memory (.fixed 0x1000 8)) = 0 ∧
      s'.machine.flag .x86_64 cf = true := by
  obtain ⟨hagrees, harch⟩ := symbolicBytes_agrees 0x80 0x80
  have hx86 : (symbolicBytes 0x80 0x80).arch.isX86 = true := by rw [harch]; rfl
  constructor
  · obtain ⟨s', hrun, hproduct, hflags⟩ := (multiplication_is_exact hagrees.coherent
      hagrees.noArray (by decide +kernel) hx86 (multiplyByte_resolves _) 8 16384).1
      true accumulatorByte upperByte (.memory (.fixed 0x1000 8))
      (by decide +kernel) rfl ⟨rfl, rfl⟩ rfl (by rw [harch]; exact holds_bytes)
      (by decide +kernel)
    rw [harch] at hflags
    exact ⟨s', hrun, hproduct, (hflags of (by decide)).trans (by decide)⟩
  · obtain ⟨s', hrun, hvalue, hflags⟩ := (multiplication_is_exact hagrees.coherent
      hagrees.noArray (by decide +kernel) hx86 (multiplyMemory_resolves _) 8 16384).2 _ _ _
      (by decide +kernel) (by rw [harch]; exact multiplyMemory_factors) (by decide) (by decide) rfl
      (.inr hagrees.steady) (by decide +kernel)
    rw [harch] at hvalue hflags
    exact ⟨s', hrun, hvalue, (hflags cf (by decide)).trans (by decide)⟩

/-- Where the formula of a factor reads the memory that is written, the flags do not tell
whether the product fits: they are computed from the factor after the write. -/
theorem multiplication_not_exact_over_array :
    (loadedByte 0x10).Coherent ∧ (loadedByte 0x10).modes.isOn .memoryArray = false ∧
    (loadedByte 0x10).modes.isOn .alignedMemory = false ∧
    (∀ op ∈ multiplyMemory.operands, op.Resolves (loadedByte 0x10).arch) ∧
    (loadedByte 0x10).arch = .x86_64 ∧ operation? multiplyMemory.opcode = some .imul ∧
    Multiplies .x86_64 8 multiplyMemory.operands (.memory (.fixed 0x1000 8))
      (.memory (.fixed 0x1000 8)) (.register accumulatorByte) ∧
    multiplyMemory.argument .x86_64 (loadedByte 0x10).machine 8 (.memory (.fixed 0x1000 8)) = 0x10 ∧
    multiplyMemory.argument .x86_64 (loadedByte 0x10).machine 8 (.register accumulatorByte) = 0x10 ∧
    ∃ s', Step.process ⟨loadedByte 0x10, multiplyMemory⟩ = .ok none s' ∧
      s'.machine.flag .x86_64 cf ≠ !Word.fits true 8 (0x10 * 0x10) := by
  have hbounded : (loadedByte 0x10).Bounded := Context.bounded_of_vars (by decide +kernel)
  refine ⟨Engine.coherent_of_passes hbounded (by decide +kernel), by decide +kernel,
    by decide +kernel, multiplyMemory_resolves _, by decide +kernel, by decide +kernel,
    multiplyMemory_factors, by decide +kernel, by decide +kernel,
    Step.exists_frame (by decide +kernel)⟩

end Concolic
