import Concolic.Proofs.Reachable
import Concolic.Proofs.StatusFlags

/-
  Sums and differences.

  The operations that add and subtract, on x86 and on AArch64, leave their result in the
  destination and its status in the flags, as a plain reading of the operands says
  (`X86.Arithmetic.result`, `X86.Arithmetic.status`, `AArch64.Arithmetic.flags`).
-/

namespace Concolic

open Word View Instruction Architecture Step Formula Operand Engine ArithOp Concolic.Action
open Machine Build

variable {width a : Nat} {arch : Architecture} {kind : Arithmetic}

theorem Operand.Target.bits {op : Operand} (h : op.Target arch width) : op.bits = width := by
  cases op with
  | immediate imm => cases h.2
  | register reg => exact h.1.2
  | memory access => exact h.1.1

/-! The x86 operations. -/

theorem Word.add_add (width a b c : Nat) : add width (add width a b) c = sum width a b c :=
  Nat.mod_add_mod _ _ _

theorem Word.difference_zero (width a b : Nat) : difference width a b 0 = sub width a b := by
  rw [difference, Nat.cast_zero, Int.sub_zero, sub]

theorem Word.apply_kind (kind : Flags.Kind) (width a b : Nat) :
    kind.op.apply width a b = combined kind width a b 0 := by
  cases kind with
  | sum => rfl
  | difference => exact (difference_zero width a b).symm

theorem Word.difference_neg (width a : Nat) : difference width 0 a 0 = neg width a := by
  rw [difference_zero, sub, Nat.cast_zero, zero_sub, neg]

theorem Word.truncate_one (h : WordWidth width) : truncate width 1 = 1 := by
  refine truncate_of_lt ?_
  rw [modulus_eq h.2]
  exact Nat.one_lt_two_pow (Nat.one_le_iff_ne_zero.1 h.1)

theorem Word.sub_add (width a b c : Nat) :
    sub width a (add width b c) = difference width a b c := by
  unfold sub add difference truncate wrap
  push_cast
  rw [Int.sub_emod_emod, sub_sub]

namespace X86

/-- The operations that add and subtract. -/
inductive Arithmetic where
  | add
  | adc
  | sub
  | sbb
  | cmp
  | inc
  | dec
  | neg
  deriving DecidableEq

namespace Arithmetic

def op : Arithmetic → Op
  | add => .add
  | adc => .adc
  | sub => .sub
  | sbb => .sbb
  | cmp => .cmp
  | inc => .inc
  | dec => .dec
  | neg => .neg

def hasSource : Arithmetic → Bool
  | inc | dec | neg => false
  | _ => true

/-- The value of the destination afterwards, by that of the destination, of the source
and of the carry flag before. -/
def result (width a b : Nat) (carry : Bool) : Arithmetic → Nat
  | add => Word.sum width a b 0
  | adc => Word.sum width a b carry.toNat
  | sub => Word.difference width a b 0
  | sbb => Word.difference width a b carry.toNat
  | cmp => a
  | inc => Word.sum width a 1 0
  | dec => Word.difference width a 1 0
  | neg => Word.difference width 0 a 0

def status (width a b : Nat) (carry : Bool) : Arithmetic → Status
  | add => .ofSum width a b 0
  | adc => .ofSum width a b carry.toNat
  | sub | cmp => .ofDifference width a b 0
  | sbb => .ofDifference width a b carry.toNat
  | inc => { Status.ofSum width a 1 0 with carry }
  | dec => { Status.ofDifference width a 1 0 with carry }
  | neg => .ofDifference width 0 a 0

/-- The part of the operation before the program counter moves. -/
def action : Arithmetic → Step Unit
  | add => X86.add
  | adc => X86.adc
  | sub => X86.sub
  | sbb => X86.sbb
  | cmp => X86.cmp
  | inc => X86.inc
  | dec => X86.dec
  | neg => X86.neg

theorem execute_op (kind : Arithmetic) : kind.op.execute = complete kind.action := by
  cases kind <;> rfl

/-- The flags that the operation writes, in the order of their writes. -/
def writes (kind : Arithmetic) (st : Status) : List (Nat × Bool) :=
  match kind with
  | inc | dec => countWrites st
  | _ => statusWrites st

/-- The machine afterwards, but for the program counter. -/
def after (kind : Arithmetic) (arch : Architecture) (dst : Operand) (width a b : Nat)
    (m : Machine) : Machine :=
  let stored := if kind = cmp then m
    else m.store arch dst (kind.result width a b (m.flag arch cf))
  stored.setFlags arch (kind.writes (kind.status width a b (m.flag arch cf)))

/-- The operands suit the operation, and are words of `width` bits. -/
structure Takes (kind : Arithmetic) (arch : Architecture) (width : Nat)
    (operands : List Operand) (dst src : Operand) : Prop where
  first : operands[0]? = some dst
  second : kind.hasSource = true → operands[1]? = some src ∧ src.Fits arch width
  fits : dst.Fits arch width
  bits : dst.bits = width
  place : kind ≠ cmp → dst.immediate? = none

end Arithmetic

end X86

theorem View.Forms.withCarry {V : View} {rules : Rules} {left right carry : Formula}
    {width a b c : Nat} {kind : Flags.Kind} (hleft : V.Gives left width a)
    (hright : V.Gives right width b) (hcarry : V.Gives carry width c) :
    V.Forms rules (X86.withCarry kind left right carry) width (combined kind width a b c) := by
  cases kind with
  | sum =>
    refine (arith hleft .add hright).bind fun sum hsum => ?_
    exact (arith hsum .add hcarry).of_eq rfl (add_add ..)
  | difference =>
    refine (arith hright .add hcarry).bind fun subtrahend hsubtrahend => ?_
    exact (arith hleft .sub hsubtrahend).of_eq rfl (sub_add ..)

namespace Scene.Runs

open X86 (Arithmetic)

variable {S : Scene} {m : Machine} {dst src : Operand} {width : Nat}

theorem readPair (hfirst : S.code.operands[0]? = some dst)
    (hsecond : S.code.operands[1]? = some src) (hdst : dst.Fits S.arch width)
    (hbits : dst.bits = width) (hsrc : src.Fits S.arch width) (hrange : WordWidth width) :
    S.Runs m X86.readPair m fun p => p.dst = dst ∧ p.src = src ∧
      S.view.Gives p.left width (S.code.operandValue S.arch m width dst) ∧
      S.view.Gives p.right width (S.code.operandValue S.arch m width src) := by
  refine (operand hfirst).bind_eq ?_
  refine (operand hsecond).bind_eq ?_
  refine (read hdst hbits hrange).bind fun left hleft => ?_
  rw [hbits]
  refine (readSized hsrc hrange).bind fun right hright => ?_
  exact pure ⟨rfl, rfl, hleft, hright⟩

theorem pairTainted (p : X86.Pair) : S.Moves m p.isTainted m :=
  (isTainted p.dst).bind fun _ _ => (isTainted p.src).bind fun _ _ => pure trivial

section

variable (hx86 : S.arch.isX86 = true)

include hx86

theorem readCarry (hrange : WordWidth width) :
    S.Runs m (X86.readCarry width) m fun f =>
      S.view.Gives f width (m.flag S.arch X86.cf).toNat :=
  (readFlag (X86.isFlag hx86 (by decide))).bind fun _ hf =>
    build fun _ => Forms.zeroExtend hf hrange.1 hrange.2

theorem assignWithCarry {p : X86.Pair} {f : Formula} {n : Nat} (hdst : p.dst.Target S.arch width)
    (hf : S.view.Gives f width n) (hsteady : p.dst.memory? = none ∨ S.Steady) (comment : String) :
    S.Moves m (X86.assignWithCarry p f comment) (m.store S.arch p.dst n) := by
  obtain ⟨reg, hreg, -⟩ := register_of_isFlag (X86.isFlag hx86
    (by decide : X86.cf ∈ X86.statusFlags))
  exact (pairTainted p).bind fun _ _ => (isRegisterTainted hreg).bind fun _ _ =>
    assign hdst hf hsteady comment (taints_setTaint _ _)

/-- The flags of a negation are those of a difference from zero. -/
theorem writeNegationFlags (hwide : 8 ≤ width) {f result : Formula} (hf : S.view.Gives f width a)
    (hresult : S.view.Gives result width (difference width 0 a 0)) (tainted : Bool) :
    S.Moves m (do
      let changed ← xor f result
      let adjusted ← X86.adjust changed
      Step.writeRegister X86.af adjusted "Adjust flag" tainted
      let zero ← zero f.width
      let carry ← ne f zero
      Step.writeRegister X86.cf carry "Carry flag" tainted
      let both ← and result f
      let overflow ← Flags.sign both
      Step.writeRegister X86.of overflow "Overflow flag" tainted
      X86.writeResultFlags result tainted)
      (m.setFlags S.arch (X86.statusWrites (.ofDifference width 0 a 0))) := by
  have hlim := hf.width_range.2
  have hzero : 0 < modulus width := modulus_pos width
  have hone : 0 ≤ 1 := Nat.zero_le 1
  have htop : width - 1 < width := by omega
  have hadjust := Status.ofDifference_adjust (b := a) hlim hzero hone (by omega : 4 < width)
  have hoverflow := Status.combined_overflow hlim hzero hf.lt hone .difference (by omega)
  have hcarry : (Status.ofDifference width 0 a 0).carry = (a != 0) := by
    rw [Status.ofDifference, Bool.eq_iff_iff, decide_eq_true_iff, bne_iff_ne]
    omega
  rw [Nat.zero_testBit, Bool.false_xor] at hadjust
  simp only [Nat.zero_testBit, Bool.false_xor, reduceCtorEq, decide_false, combined,
    Status.combined, Bool.and_comm (a.testBit _)] at hoverflow
  refine form (.arith hf .xor hresult) fun changed hchanged => ?_
  refine form (.adjust hchanged (by omega)) fun adjusted hadjusted => ?_
  rw [ArithOp.apply, testBit_xor hlim (by omega), hadjust] at hadjusted
  refine (writeFlag (X86.isFlag hx86 (by decide)) hadjusted _ _).seq ?_
  rw [hf.width_eq]
  refine form (.zero hf.width_range) fun zero hzeroGives => ?_
  refine form (.compare hf .ne hzeroGives) fun carry hcarryGives => ?_
  rw [CompareOp.holds, ← hcarry] at hcarryGives
  refine (writeFlag (X86.isFlag hx86 (by decide)) hcarryGives _ _).seq ?_
  refine form (.arith hresult .and hf) fun both hboth => ?_
  refine form (.sign hboth) fun overflow hoverflowGives => ?_
  rw [ArithOp.apply, testBit_and hlim htop, hoverflow] at hoverflowGives
  refine (writeFlag (X86.isFlag hx86 (by decide)) hoverflowGives _ _).seq ?_
  exact writeResultFlags hx86 hresult hwide rfl rfl rfl tainted

/-- Every operation that adds or subtracts leaves its result and its status. -/
theorem arithmetic (hwide : 8 ≤ width) (hlim : width ≤ limit)
    (hops : kind.Takes S.arch width S.code.operands dst src)
    (hsteady : kind ≠ .cmp → dst.memory? = none ∨ S.Steady) :
    S.Moves m kind.action (kind.after S.arch dst width (S.code.operandValue S.arch m width dst)
      (S.code.operandValue S.arch m width src) m) := by
  have hrange : WordWidth width := ⟨by omega, hlim⟩
  have hassign : ∀ {f : Formula} {n : Nat} {comment : String} {taint : Step Bool},
      kind ≠ .cmp → S.view.Gives f width n → Taints taint →
      S.Moves m (Step.assign dst f comment taint) (m.store S.arch dst n) :=
    fun h hf htaint => assign ⟨hops.fits, hops.place h⟩ hf (hsteady h) _ htaint
  have hpair := fun h : kind.hasSource = true =>
    readPair (m := m) hops.first (hops.second h).1 hops.fits hops.bits (hops.second h).2 hrange
  have hcarry : (m.flag S.arch X86.cf).toNat ≤ 1 := Bool.toNat_le _
  cases kind with
  | add | sub =>
    refine (hpair rfl).bind fun p hp => ?_
    obtain ⟨rfl, rfl, hleft, hright⟩ := hp
    refine form (.arith hleft (Flags.Kind.op _) hright) fun result hresult => ?_
    rw [apply_kind] at hresult
    refine (hassign (by decide) hresult (taints_unionTaint _ _ _)).seq ?_
    exact writeFlags hx86 (Nat.zero_le 1) hleft hright hwide _ hresult
  | inc | dec =>
    refine (operand hops.first).bind_eq ?_
    refine (read hops.fits hops.bits hrange).bind fun left hleft => ?_
    rw [hops.bits]
    refine form (.constant hrange 1) fun right hright => ?_
    rw [truncate_one hrange] at hright
    refine form (.arith hleft (Flags.Kind.op _) hright) fun result hresult => ?_
    rw [apply_kind] at hresult
    refine (hassign (by decide) hresult (taints_isTainted _)).bind fun tainted _ => ?_
    refine (writeAdjust (o := ⟨left, right, result, tainted⟩) hx86 (Nat.zero_le 1) hleft hright
      hwide hresult).seq ?_
    refine (writeOverflow hx86 (Nat.zero_le 1) hleft hright hresult).seq ?_
    exact writeResultFlags hx86 hresult hwide rfl rfl rfl tainted
  | adc | sbb =>
    refine (hpair rfl).bind fun p hp => ?_
    obtain ⟨rfl, rfl, hleft, hright⟩ := hp
    rw [hops.bits]
    refine (readCarry hx86 hrange).bind fun carry hcarryGives => ?_
    refine form (View.Forms.withCarry hleft hright hcarryGives) fun result hresult => ?_
    refine (assignWithCarry hx86 ⟨hops.fits, hops.place (by decide)⟩ hresult
      (hsteady (by decide)) _).seq ?_
    exact writeFlags hx86 hcarry hleft hright hwide _ hresult
  | cmp =>
    refine (hpair rfl).bind fun p hp => ?_
    obtain ⟨rfl, rfl, hleft, hright⟩ := hp
    refine form (.arith hleft .sub hright) fun result hresult => ?_
    rw [ArithOp.apply, ← difference_zero] at hresult
    refine (pairTainted p).bind fun tainted _ => (volatile result _ tainted).seq ?_
    exact writeFlags hx86 (Nat.zero_le 1) hleft hright hwide .difference hresult
  | neg =>
    refine (operand hops.first).bind_eq ?_
    refine (read hops.fits hops.bits hrange).bind fun f hf => ?_
    refine form (.unary hf .neg) fun result hresult => ?_
    rw [UnaryOp.apply, ← difference_neg] at hresult
    refine (hassign (by decide) hresult (taints_isTainted _)).bind fun tainted _ => ?_
    exact writeNegationFlags hx86 hwide hf hresult tainted

end

end Scene.Runs

namespace X86

variable {arch : Architecture} (hx86 : arch.isX86 = true)

theorem status_eq {m : Machine} {flag : Nat → Bool}
    (h : ∀ id ∈ statusFlags, m.flag arch id = flag id) :
    status arch m = ⟨flag af, flag cf, flag of, flag pf, flag sf, flag zf⟩ := by
  unfold status
  rw [h af (by decide), h cf (by decide), h of (by decide), h pf (by decide), h sf (by decide),
    h zf (by decide)]

theorem status_congr {m m' : Machine} (h : ∀ id ∈ statusFlags, m.flag arch id = m'.flag arch id) :
    status arch m = status arch m' := status_eq h

theorem Arithmetic.writes_status (kind : Arithmetic) (st : Status) :
    ∀ p ∈ kind.writes st, p.1 ∈ statusFlags := by
  cases kind <;> simp [writes, countWrites, statusWrites, resultWrites, statusFlags]

include hx86

/-- An operation leaves the status that it computes, whether or not it writes carry. -/
theorem status_writes (kind : Arithmetic) {m : Machine} {carry : Bool}
    (hcarry : m.flag arch cf = carry) (width a b : Nat) :
    status arch (m.setFlags arch (kind.writes (kind.status width a b carry))) =
      kind.status width a b carry := by
  subst hcarry
  have hflag : ∀ id ∈ statusFlags, ∀ st,
      (m.setFlags arch (kind.writes st)).flag arch id =
        (kind.writes st).foldl (fun v p => if p.1 = id then p.2 else v) (m.flag arch id) :=
    fun id hid st => flag_setFlags (isFlag_writes hx86 (kind.writes_status st)) (isFlag hx86 hid) m
  rw [status_eq fun id hid => hflag id hid _]
  cases kind <;> rfl

namespace Arithmetic

variable {kind : Arithmetic} {m : Machine} {dst : Operand} {width : Nat}

omit hx86 in
theorem result_lt (hne : kind ≠ cmp) (width a b : Nat) (carry : Bool) :
    kind.result width a b carry < modulus width := by
  cases kind with
  | cmp => exact absurd rfl hne
  | add | adc | inc => exact sum_lt
  | sub | sbb | dec | neg => exact difference_lt

theorem status_after (hwide : 8 ≤ width) (htarget : kind ≠ cmp → dst.Target arch width)
    (a b value : Nat) :
    X86.status arch ((kind.after arch dst width a b m).setRegister arch.programCounter value) =
      kind.status width a b (m.flag arch cf) := by
  have hstored : ∀ id ∈ statusFlags, ∀ n,
      (if kind = cmp then m else m.store arch dst n).flag arch id = m.flag arch id := by
    intro id hid n
    split
    · rfl
    · next hne => exact flag_store (isFlag hx86 hid) (htarget hne) (by omega) n
  rw [status_congr fun id hid => flag_setCounter (isFlag hx86 hid) _ _]
  exact status_writes hx86 kind (hstored cf (by decide) _) width a b

theorem operandValue_after (hwide : 8 ≤ width) (hlim : width ≤ limit) (hfits : dst.Fits arch width)
    (hplace : kind ≠ cmp → dst.immediate? = none) (hcounter : dst.isCounter arch = false)
    (inst : Instruction) (ha : inst.operandValue arch m width dst = a) (b value : Nat) :
    inst.operandValue arch
        ((kind.after arch dst width a b m).setRegister arch.programCounter value) width dst =
      kind.result width a b (m.flag arch cf) := by
  have hzero := isZero_eq hx86 dst
  rw [operandValue_setCounter inst hcounter, after,
    operandValue_setFlags inst (isFlag_writes hx86 (kind.writes_status _)) hfits (by omega)]
  split
  · next hcmp =>
    subst hcmp
    exact ha
  · next hne =>
    exact operandValue_store inst ⟨hfits, hplace hne⟩ hcounter hzero hlim (result_lt hne _ _ _ _)

end Arithmetic

end X86

/-! The AArch64 operations. -/

namespace AArch64

/-- The operations that add and subtract and set the flags. -/
inductive Arithmetic where
  | adds
  | subs
  | cmp
  deriving DecidableEq

namespace Arithmetic

def op : Arithmetic → Op
  | adds => .binary .add true
  | subs => .binary .sub true
  | cmp => .cmp

def result (width a b : Nat) : Arithmetic → Nat
  | adds => Word.sum width a b 0
  | subs | cmp => Word.difference width a b 0

/-- The flags afterwards; the carry of a difference says that nothing was borrowed. -/
def flags (width a b : Nat) : Arithmetic → FlagValues
  | adds => .ofStatus false (.ofSum width a b 0)
  | subs | cmp => .ofStatus true (.ofDifference width a b 0)

def action : Arithmetic → Step Unit
  | adds => AArch64.binary .add true
  | subs => AArch64.binary .sub true
  | cmp => AArch64.cmp

theorem execute_op (kind : Arithmetic) : kind.op.execute = complete kind.action := by
  cases kind <;> rfl

def firstSource : Arithmetic → Nat
  | cmp => 0
  | _ => 1

def after (kind : Arithmetic) (arch : Architecture) (dst : Operand) (width a b : Nat)
    (m : Machine) : Machine :=
  let stored := if kind = cmp then m else m.store arch dst (kind.result width a b)
  stored.setFlags arch (kind.flags width a b).writes

structure Takes (kind : Arithmetic) (arch : Architecture) (width : Nat)
    (operands : List Operand) (dst left right : Operand) : Prop where
  target : kind ≠ cmp → operands[0]? = some dst ∧ dst.Target arch width
  first : operands[kind.firstSource]? = some left
  second : operands[kind.firstSource + 1]? = some right
  leftFits : left.Fits arch width
  rightFits : right.Fits arch width
  bits : kind = cmp → left.bits = width

end Arithmetic

end AArch64

namespace Scene.Runs

open AArch64 (Arithmetic)

variable {S : Scene} {m : Machine} {width : Nat}

/-- Every operation that adds or subtracts and sets the flags leaves its result in the
destination, if it has one, and its flags. -/
theorem arithmetic_aarch64 (harch : S.arch = .aarch64) (hrange : WordWidth width)
    {dst first second : Operand} (hops : kind.Takes S.arch width S.code.operands dst first second)
    (hsteady : kind ≠ .cmp → dst.memory? = none ∨ S.Steady) :
    S.Moves m kind.action (kind.after S.arch dst width (S.code.operandValue S.arch m width first)
      (S.code.operandValue S.arch m width second) m) := by
  cases kind with
  | adds | subs =>
    obtain ⟨htarget, hdst⟩ := hops.target (by decide)
    refine (operand htarget).bind_eq ?_
    refine (operand hops.first).bind_eq ?_
    refine (operand hops.second).bind_eq ?_
    rw [hdst.bits]
    refine (readSized hops.leftFits hrange).bind fun left hleft => ?_
    refine (readSized hops.rightFits hrange).bind fun right hright => ?_
    refine form (.arith hleft _ hright) fun result hresult => ?_
    simp only [AArch64.Binary.op, ArithOp.apply, ← difference_zero] at hresult
    refine (assign hdst hresult (hsteady (by decide)) _ (taints_unionTaint _ _ _)).bind
      fun tainted _ => ?_
    exact writeFlags_aarch64 harch hleft hright _ hresult tainted
  | cmp =>
    refine (operand hops.first).bind_eq ?_
    refine (operand hops.second).bind_eq ?_
    refine (read hops.leftFits (hops.bits rfl) hrange).bind fun left hleft => ?_
    rw [hops.bits rfl]
    refine (readSized hops.rightFits hrange).bind fun right hright => ?_
    refine form (.arith hleft .sub hright) fun result hresult => ?_
    rw [ArithOp.apply, ← difference_zero] at hresult
    refine (isTainted _).bind fun t₁ _ => (isTainted _).bind fun t₂ _ => ?_
    refine (volatile result _ (t₁ || t₂)).seq ?_
    exact writeFlags_aarch64 harch hleft hright .difference hresult _

end Scene.Runs

namespace AArch64.Arithmetic

variable {arch : Architecture} (harch : arch = .aarch64) {kind : Arithmetic} {m : Machine}
  {dst : Operand} {width : Nat}

include harch

theorem flagValues_after (a b value : Nat) :
    flagValues arch ((kind.after arch dst width a b m).setRegister arch.programCounter value) =
      kind.flags width a b := by
  rw [flagValues_congr fun id hid => flag_setCounter (isFlag harch hid) _ _]
  exact flagValues_writes harch _ _

theorem operandValue_after (hwide : 8 ≤ width) (hlim : width ≤ limit) (hne : kind ≠ cmp)
    (htarget : dst.Target arch width) (hcounter : dst.isCounter arch = false)
    (hzero : dst.isZero arch = false) (inst : Instruction) (a b value : Nat) :
    inst.operandValue arch
        ((kind.after arch dst width a b m).setRegister arch.programCounter value) width dst =
      kind.result width a b := by
  have hlt : kind.result width a b < modulus width := by
    cases kind with
    | adds => exact sum_lt
    | subs | cmp => exact difference_lt
  rw [operandValue_setCounter inst hcounter, after,
    operandValue_setFlags inst (isFlag_writes harch _) htarget.1 (by omega),
    if_neg hne]
  exact operandValue_store inst htarget hcounter hzero hlim hlt

end AArch64.Arithmetic

/-! Whole instructions. -/

def Instruction.argument (inst : Instruction) (arch : Architecture) (m : Machine) (width : Nat)
    (op : Operand) : Nat := inst.operandValue arch m width (inst.placed arch m op)

theorem Instruction.argument_lt {op : Operand} (hop : op.Fits arch width) (hrange : WordWidth width)
    (inst : Instruction) (m : Machine) : inst.argument arch m width op < modulus width := by
  cases op with
  | immediate imm => exact signExtend_lt _ _ _
  | register reg =>
    obtain ⟨-, rfl⟩ := hop
    simp only [argument, placed, operandValue, registerValue]
    split
    · exact modulus_pos _
    · split
      · exact truncate_lt _ _
      · exact m.register_lt reg
  | memory access =>
    obtain ⟨rfl, -⟩ := hop
    have hplaced : WordWidth
      ({ access with address := inst.addressOf arch m access } : Access).bits := hrange
    exact (Agrees.accessValue_lt hplaced m).2

section

variable {arch : Architecture} {m : Machine} {width : Nat} {op : Operand} (inst : Instruction)

theorem Operand.Fits.placed (h : op.Fits arch width) : (inst.placed arch m op).Fits arch width := by
  cases op <;> exact h

theorem Operand.bits_placed : (inst.placed arch m op).bits = op.bits := by cases op <;> rfl

theorem Operand.immediate?_placed : (inst.placed arch m op).immediate? = op.immediate? := by
  cases op <;> rfl

theorem Operand.isCounter_placed : (inst.placed arch m op).isCounter arch = op.isCounter arch := by
  cases op <;> rfl

theorem Operand.isZero_placed : (inst.placed arch m op).isZero arch = op.isZero arch := by
  cases op <;> rfl

theorem Operand.memory?_placed (h : op.memory? = none) :
    (inst.placed arch m op).memory? = none := by
  cases op with
  | memory access => cases h
  | _ => rfl

theorem Operand.resolves_fixed (arch : Architecture) (address : Address) (bits : Nat) :
    (memory (.fixed address bits)).Resolves arch :=
  ⟨⟨fun _ h => (by cases h), fun _ h => (by cases h), fun h => False.elim h⟩, fun h => (by cases h)⟩

theorem Operand.Target.placed (h : op.Target arch width) :
    (inst.placed arch m op).Target arch width :=
  ⟨h.1.placed inst, (immediate?_placed inst).trans h.2⟩

end

section

variable {e : Engine} {V : View} (hshows : V.Shows e) {inst : Instruction}
  (hops : ∀ op ∈ inst.operands, op.Resolves e.arch) {width : Nat}

include hshows hops

/-- An x86 operation that adds or subtracts completes, and leads to the machine that its
result and its status say. -/
theorem X86.process_arithmetic (hx86 : e.arch.isX86 = true) (hwide : 8 ≤ width)
    (hlim : width ≤ limit) (hop : operation? inst.opcode = some kind.op) {dst src : Operand}
    (htakes : kind.Takes e.arch width inst.operands dst src)
    (hsteady : kind ≠ .cmp → dst.memory? = none ∨ (e.scene V inst).Steady) :
    ∃ s', process ⟨e, inst⟩ = .ok none s' ∧ s'.arch = e.arch ∧
      Alike e.arch ((kind.after e.arch (inst.placed e.arch e.machine dst) width
        (inst.argument e.arch e.machine width dst) (inst.argument e.arch e.machine width src)
        e.machine).past e.arch inst) s'.machine ∧ V.Shows s'.engine := by
  have hsemantics : e.arch.semantics? inst.opcode = some (complete kind.action) := by
    rw [semantics?_x86 hx86, hop, Option.map_some, kind.execute_op]
  refine process_completes hshows hsemantics hops ?_
  refine Scene.Runs.complete (Scene.Runs.arithmetic hx86 hwide hlim ⟨scene_operand htakes.first,
    fun h => ⟨scene_operand (htakes.second h).1, (htakes.second h).2.placed inst⟩,
    htakes.fits.placed inst, (bits_placed inst).trans htakes.bits,
    fun h => (immediate?_placed inst).trans (htakes.place h)⟩ fun h => ?_)
  exact (hsteady h).imp (memory?_placed inst) id

theorem AArch64.process_arithmetic (harch : e.arch = .aarch64) (hrange : WordWidth width)
    (hop : operation? inst.opcode = some kind.op) {dst left right : Operand}
    (htakes : kind.Takes e.arch width inst.operands dst left right)
    (hsteady : kind ≠ .cmp → dst.memory? = none ∨ (e.scene V inst).Steady) :
    ∃ s', process ⟨e, inst⟩ = .ok none s' ∧ s'.arch = e.arch ∧
      Alike e.arch ((kind.after e.arch (inst.placed e.arch e.machine dst) width
        (inst.argument e.arch e.machine width left) (inst.argument e.arch e.machine width right)
        e.machine).past e.arch inst) s'.machine ∧ V.Shows s'.engine := by
  have hsemantics : e.arch.semantics? inst.opcode = some (complete kind.action) := by
    rw [harch, semantics?_aarch64, hop, Option.map_some, kind.execute_op]
  refine process_completes hshows hsemantics hops ?_
  refine Scene.Runs.complete (Scene.Runs.arithmetic_aarch64 harch hrange ⟨fun h =>
    ⟨scene_operand (htakes.target h).1, (htakes.target h).2.placed inst⟩, scene_operand htakes.first,
    scene_operand htakes.second, htakes.leftFits.placed inst, htakes.rightFits.placed inst,
    fun h => (bits_placed inst).trans (htakes.bits h)⟩ fun h => ?_)
  exact (hsteady h).imp (memory?_placed inst) id

end

/-- Sums and differences are exact. In a coherent engine, an x86 operation that adds or
subtracts completes, the destination has the result, and the status flags are those of
the result; so have the flags of an AArch64 operation. Where the destination is memory,
no formula may read the memory that is written. -/
theorem arithmetic_is_exact {e : Engine} (hcoherent : e.Coherent)
    (harray : e.modes.isOn .memoryArray = false) (hwhole : e.modes.isOn .alignedMemory = false)
    {inst : Instruction} (hops : ∀ op ∈ inst.operands, op.Resolves e.arch) {width : Nat}
    (hwide : 8 ≤ width) (hlim : width ≤ 128) :
    (e.arch.isX86 = true → ∀ (kind : X86.Arithmetic) (dst src : Operand),
      X86.operation? inst.opcode = some kind.op →
      kind.Takes e.arch width inst.operands dst src → dst.isCounter e.arch = false →
      (kind ≠ .cmp → dst.memory? = none ∨ e.Steady) →
      ∃ s', Step.process ⟨e, inst⟩ = .ok none s' ∧
        inst.operandValue e.arch s'.machine width (inst.placed e.arch e.machine dst) =
          kind.result width (inst.argument e.arch e.machine width dst)
            (inst.argument e.arch e.machine width src) (e.machine.flag e.arch X86.cf) ∧
        X86.status e.arch s'.machine =
          kind.status width (inst.argument e.arch e.machine width dst)
            (inst.argument e.arch e.machine width src) (e.machine.flag e.arch X86.cf)) ∧
    (e.arch = .aarch64 → ∀ (kind : AArch64.Arithmetic) (dst left right : Operand),
      AArch64.operation? inst.opcode = some kind.op →
      kind.Takes e.arch width inst.operands dst left right →
      (kind ≠ .cmp → dst.memory? = none ∨ e.Steady) →
      ∃ s', Step.process ⟨e, inst⟩ = .ok none s' ∧
        AArch64.flagValues e.arch s'.machine =
          kind.flags width (inst.argument e.arch e.machine width left)
            (inst.argument e.arch e.machine width right) ∧
        (kind ≠ .cmp → dst.isCounter e.arch = false → dst.isZero e.arch = false →
          inst.operandValue e.arch s'.machine width (inst.placed e.arch e.machine dst) =
            kind.result width (inst.argument e.arch e.machine width left)
              (inst.argument e.arch e.machine width right))) := by
  have hshows : (e.present hcoherent.bounded e.Steady).Shows e := hcoherent.shows id harray hwhole
  have hsteady : ∀ {written : Prop} {dst : Operand}, (written → dst.memory? = none ∨ e.Steady) →
      written → dst.memory? = none ∨ ∀ v byte, (e.present hcoherent.bounded e.Steady).admits v →
        (e.present hcoherent.bounded e.Steady).admits { v with byte } := fun h hwritten =>
    (h hwritten).imp id fun hs => Engine.present_steady hs
  constructor
  · intro hx86 kind dst src hop htakes hcounter hdst
    obtain ⟨s', hrun, -, halike, -⟩ := X86.process_arithmetic hshows hops hx86 hwide hlim hop htakes
      (hsteady hdst)
    refine ⟨s', hrun, ?_, ?_⟩
    · rw [← halike.operandValue inst (htakes.fits.placed inst)]
      exact X86.Arithmetic.operandValue_after hx86 hwide hlim (htakes.fits.placed inst)
        (fun h => (Operand.immediate?_placed inst).trans (htakes.place h))
        ((Operand.isCounter_placed inst).trans hcounter) inst rfl _ _
    · rw [← X86.status_congr fun id _ => halike.flag id]
      exact X86.Arithmetic.status_after hx86 hwide
        (fun h => Operand.Target.placed inst ⟨htakes.fits, htakes.place h⟩) _ _ _
  · intro harch kind dst left right hop htakes hdst
    obtain ⟨s', hrun, -, halike, -⟩ := AArch64.process_arithmetic hshows hops harch
      ⟨by omega, hlim⟩ hop htakes (hsteady hdst)
    refine ⟨s', hrun, ?_, fun hne hcounter hzero => ?_⟩
    · rw [← AArch64.flagValues_congr fun id _ => halike.flag id]
      exact AArch64.Arithmetic.flagValues_after harch _ _ _
    · have htarget := (htakes.target hne).2.placed (m := e.machine) inst
      rw [← halike.operandValue inst htarget.1]
      exact AArch64.Arithmetic.operandValue_after harch hwide hlim hne htarget
        ((Operand.isCounter_placed inst).trans hcounter)
        ((Operand.isZero_placed inst).trans hzero) inst _ _ _

def X86.accumulatorByte : Register := x86_64.numbered X86.al

theorem X86.accumulatorByte_has : x86_64.Has accumulatorByte := numbered_has _

/-- A byte of memory and the lowest byte of the accumulator are variables. -/
def X86.symbolicBytes (byte : UInt8) (low : Nat) : Engine :=
  Action.run (.new .x86_64)
    [.setMemory 0x1000 [byte], .symbolizeMemory (.fixed 0x1000 8),
      .setRegister X86.accumulatorByte low, .symbolizeRegister X86.accumulatorByte]

theorem X86.symbolicBytes_agrees (byte : UInt8) (low : Nat) :
    (symbolicBytes byte low).Agrees False ∧ (symbolicBytes byte low).arch = .x86_64 := by
  refine run_agrees _ (agrees_new .start .x86_64
    (rfl : Modes.initial.isOn .memoryArray = false) (by decide)) ?_ (by simp)
  simp only [List.forall_mem_cons]
  exact ⟨trivial, False.elim, trivial, ⟨accumulatorByte_has, .inr (by decide +kernel)⟩, by simp⟩

def X86.loadedByte (byte : UInt8) : Engine := X86.loaded accumulatorByte 7 [byte]

/-- The accumulator is added to a byte of memory. -/
def addByte : Instruction :=
  .decoded 0x400007 7 2 [.memory (.fixed 0x1000 8), .register X86.accumulatorByte] ""

theorem addByte_resolves (arch : Architecture) : ∀ op ∈ addByte.operands, op.Resolves arch :=
  decoded_two (resolves_fixed arch _ _) trivial

theorem addByte_takes : X86.Arithmetic.add.Takes .x86_64 8 addByte.operands
    (.memory (.fixed 0x1000 8)) (.register X86.accumulatorByte) :=
  ⟨rfl, fun _ => ⟨rfl, X86.accumulatorByte_has, by decide +kernel⟩, ⟨rfl, rfl⟩, rfl, fun _ => rfl⟩

/-- The low word of a register and an immediate are compared. -/
def compareWord : Instruction :=
  .decoded 0x400000 4 24 [.register aarch64.stackPointer, .immediate ⟨1, 12⟩] ""

/-- Two bytes that are both variables, with a sum that leaves both ranges, and a
comparison of zero with one. -/
theorem arithmetic_is_exact_addByte :
    (∃ s', Step.process ⟨X86.symbolicBytes 0x80 0x80, addByte⟩ = .ok none s' ∧
      addByte.operandValue .x86_64 s'.machine 8 (.memory (.fixed 0x1000 8)) = 0 ∧
      X86.status .x86_64 s'.machine = {
        adjust := false, carry := true, overflow := true, parity := true, sign := false,
        zero := true }) ∧
    ∃ s', Step.process ⟨.new .aarch64, compareWord⟩ = .ok none s' ∧
      AArch64.flagValues .aarch64 s'.machine = ⟨true, false, false, false⟩ := by
  constructor
  · obtain ⟨hagrees, harch⟩ := X86.symbolicBytes_agrees 0x80 0x80
    obtain ⟨s', hrun, hvalue, hstatus⟩ := (arithmetic_is_exact hagrees.coherent hagrees.noArray
      (by decide +kernel) (addByte_resolves _) (by decide : 8 ≤ 8) (by decide)).1
      (by rw [harch]; rfl) .add _ _ (by decide +kernel) (by rw [harch]; exact addByte_takes) rfl
      fun _ => .inr hagrees.steady
    refine ⟨s', hrun, ?_, ?_⟩
    · rw [harch] at hvalue
      exact hvalue.trans (by decide +kernel)
    · rw [harch] at hstatus
      exact hstatus.trans (by decide +kernel)
  · have hsp := Architecture.aarch64.stackPointer_has
    have hagrees : (Engine.new .aarch64).Agrees False :=
      Engine.agrees_new .start .aarch64 rfl (by decide)
    have hresolves : ∀ op ∈ compareWord.operands, op.Resolves .aarch64 :=
      decoded_two trivial trivial
    obtain ⟨s', hrun, hflags, -⟩ := (arithmetic_is_exact hagrees.coherent rfl rfl hresolves
      (by decide : 8 ≤ 64) (by decide)).2 rfl .cmp (.immediate ⟨1, 12⟩) _ _ (by decide +kernel)
      ⟨fun h => absurd rfl h, rfl, rfl, ⟨hsp, by decide⟩, trivial, fun _ => by decide⟩
      fun h => absurd rfl h
    exact ⟨s', hrun, hflags.trans (by decide +kernel)⟩

/-- What is so of the frame that an instruction without a fault leads to. -/
theorem Step.exists_frame {r : EStateM.Result Error Frame (Option Fault)} {p : Frame → Prop}
    [DecidablePred p] (h : (match r with
      | .ok none s => decide (p s)
      | _ => false) = true) : ∃ s, r = .ok none s ∧ p s := by
  split at h
  · exact ⟨_, rfl, of_decide_eq_true h⟩
  · cases h

/-- Where the formula of an operand reads the memory that is written, the flags are not
those of the sum: they are computed from the operands after the write. -/
theorem arithmetic_not_exact_over_array :
    (X86.loadedByte 0x80).Coherent ∧ (X86.loadedByte 0x80).modes.isOn .memoryArray = false ∧
    (X86.loadedByte 0x80).modes.isOn .alignedMemory = false ∧
    (∀ op ∈ addByte.operands, op.Resolves (X86.loadedByte 0x80).arch) ∧
    (X86.loadedByte 0x80).arch = .x86_64 ∧ X86.operation? addByte.opcode = some .add ∧
    X86.Arithmetic.add.Takes .x86_64 8 addByte.operands (.memory (.fixed 0x1000 8))
      (.register X86.accumulatorByte) ∧
    addByte.argument .x86_64 (X86.loadedByte 0x80).machine 8 (.memory (.fixed 0x1000 8)) = 0x80 ∧
    addByte.argument .x86_64 (X86.loadedByte 0x80).machine 8 (.register X86.accumulatorByte) = 0x80 ∧
    ∃ s', Step.process ⟨X86.loadedByte 0x80, addByte⟩ = .ok none s' ∧
      X86.status .x86_64 s'.machine ≠
        X86.Arithmetic.add.status 8 0x80 0x80 ((X86.loadedByte 0x80).machine.flag .x86_64 X86.cf) := by
  have hbounded : (X86.loadedByte 0x80).Bounded := Context.bounded_of_vars (by decide +kernel)
  refine ⟨Engine.coherent_of_passes hbounded (by decide +kernel), by decide +kernel,
    by decide +kernel, addByte_resolves _, by decide +kernel, by decide +kernel, addByte_takes,
    by decide +kernel, by decide +kernel, Step.exists_frame (by decide +kernel)⟩

end Concolic
