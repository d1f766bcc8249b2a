import Concolic.Proofs.Execution

/-
  The flags of a machine, and runs that write them.

  A flag is a root register of one bit (`Architecture.isFlag`), so the flags of a machine
  are read and written one by one (`Machine.flag`, `Machine.setFlags`), and apart from
  the destination of a write (`Machine.store`). The parts of the operations that set
  flags leave the status of the sum or difference whose operands and result they are
  given, on x86 (`Scene.Runs.writeFlags`) and on AArch64 (`Scene.Runs.writeFlags_aarch64`).
-/

namespace Concolic

open Architecture Word View Machine X86 Register Instruction

variable {arch : Architecture} {id : Nat} {reg : Register} {flags : List (Nat × Bool)}

/-! Flags of a machine. -/

/-- The number is that of a flag: a root register of one bit. -/
def Architecture.isFlag (arch : Architecture) (id : Nat) : Bool :=
  (arch.register? id).any fun reg => reg.isRoot && reg.bits == 1 && !arch.isZeroRegister reg

theorem Architecture.register_of_isFlag (h : arch.isFlag id = true) :
    ∃ reg, arch.register? id = some reg ∧ reg.isRoot = true ∧ reg.bits = 1 ∧
      arch.isZeroRegister reg = false := by
  obtain ⟨reg, hreg, hflag⟩ := Option.any_eq_true _ _ |>.1 h
  simp only [Bool.and_eq_true, beq_iff_eq, Bool.not_eq_true'] at hflag
  exact ⟨reg, hreg, hflag.1.1, hflag.1.2, hflag.2⟩

namespace Machine

def flag (m : Machine) (arch : Architecture) (id : Nat) : Bool :=
  (arch.register? id).any fun reg => m.register reg == 1

def setFlag (m : Machine) (arch : Architecture) (id : Nat) (b : Bool) : Machine :=
  (arch.register? id).elim m fun reg => m.setRegister reg b.toNat

def setFlags (m : Machine) (arch : Architecture) (flags : List (Nat × Bool)) : Machine :=
  flags.foldl (fun m p => m.setFlag arch p.1 p.2) m

section

variable {arch : Architecture} {reg flagReg : Register} {id other : Nat} {m m' : Machine}

section

variable (hflag : arch.register? id = some flagReg)

include hflag

theorem parent_ne_of_flag (hroot : flagReg.isRoot = true) (hone : flagReg.bits = 1)
    (hreg : arch.Has reg) (hbits : reg.bits ≠ 1) : flagReg.parent ≠ reg.parent := by
  intro hparent
  have hid : flagReg.parent = id := by
    rw [← beq_iff_eq.1 hroot]
    exact register?_id hflag
  obtain ⟨root, hrootReg, -, hparentBits⟩ := hreg.root
  obtain rfl : flagReg = root :=
    Option.some.inj (hflag.symm.trans ((hid.symm.trans hparent) ▸ hrootReg))
  have := hreg.bound
  have := hreg.bits_pos
  omega

theorem register_flag (hone : flagReg.bits = 1) (m : Machine) :
    m.register flagReg = (m.flag arch id).toNat := by
  have hlt : m.register flagReg < 2 := by
    have := m.register_lt flagReg
    rwa [hone] at this
  rw [flag, hflag, Option.any_some]
  obtain h | h : m.register flagReg = 0 ∨ m.register flagReg = 1 := by omega
  · rw [h]
    rfl
  · rw [h]
    rfl

theorem setFlag_eq (m : Machine) (b : Bool) :
    m.setFlag arch id b = m.setRegister flagReg b.toNat := by
  rw [setFlag, hflag, Option.elim_some]

end

theorem flag_setFlag (hid : arch.isFlag id = true) (hother : arch.isFlag other = true)
    (m : Machine) (b : Bool) :
    (m.setFlag arch id b).flag arch other = if id = other then b else m.flag arch other := by
  obtain ⟨reg, hreg, hroot, hone, -⟩ := register_of_isFlag hid
  obtain ⟨reg', hreg', hroot', hone', -⟩ := register_of_isFlag hother
  rw [setFlag_eq hreg, flag, flag, hreg', Option.any_some, Option.any_some]
  by_cases hsame : id = other
  · subst hsame
    obtain rfl := Option.some.inj (hreg.symm.trans hreg')
    have hlow := ((has_of_register? hreg).whole hroot).1
    have hlt : b.toNat < modulus reg.bits := by
      rw [hone]
      exact Bool.toNat_lt b
    rw [register_setRegister hroot hlow hlt, if_pos rfl]
    cases b <;> rfl
  · rw [if_neg hsame, register_setRegister_of_ne]
    rw [← beq_iff_eq.1 hroot, ← beq_iff_eq.1 hroot', register?_id hreg, register?_id hreg']
    exact hsame

/-- A write of a flag changes no register of more bits. -/
theorem register_setFlag (hid : arch.isFlag id = true) (hreg : arch.Has reg) (hbits : reg.bits ≠ 1)
    (m : Machine) (b : Bool) : (m.setFlag arch id b).register reg = m.register reg := by
  obtain ⟨flagReg, hflag, hroot, hone, -⟩ := register_of_isFlag hid
  rw [setFlag_eq hflag, register_setRegister_of_ne (parent_ne_of_flag hflag hroot hone hreg hbits)]

theorem byte_setFlag (m : Machine) (arch : Architecture) (id : Nat) (b : Bool)
    (address : Address) : (m.setFlag arch id b).byte address = m.byte address := by
  unfold setFlag
  cases arch.register? id <;> rfl

/-- A write of a register of more bits changes no flag. -/
theorem flag_setRegister (hid : arch.isFlag id = true) (hreg : arch.Has reg) (hbits : reg.bits ≠ 1)
    (m : Machine) (value : Nat) : (m.setRegister reg value).flag arch id = m.flag arch id := by
  obtain ⟨flagReg, hflag, hroot, hone, -⟩ := register_of_isFlag hid
  rw [flag, flag, hflag, Option.any_some, Option.any_some,
    register_setRegister_of_ne (parent_ne_of_flag hflag hroot hone hreg hbits).symm]

theorem flag_setCounter (hid : arch.isFlag id = true) (m : Machine) (value : Nat) :
    (m.setRegister arch.programCounter value).flag arch id = m.flag arch id :=
  flag_setRegister hid arch.programCounter_has (by cases arch <;> decide) m value

theorem Alike.flag (h : Alike arch m m') (id : Nat) : m.flag arch id = m'.flag arch id := by
  unfold Machine.flag
  cases hreg : arch.register? id with
  | none => rfl
  | some reg =>
    rw [Option.any_some, Option.any_some, h.register (has_of_register? hreg)]

theorem register_setFlags (hids : ∀ p ∈ flags, arch.isFlag p.1 = true) (hreg : arch.Has reg)
    (hbits : reg.bits ≠ 1) (m : Machine) :
    (m.setFlags arch flags).register reg = m.register reg := by
  induction flags generalizing m with
  | nil => rfl
  | cons p flags ih =>
    rw [setFlags, List.foldl_cons, ← setFlags, ih (fun q hq => hids q (by simp [hq])),
      register_setFlag (hids p (by simp)) hreg hbits]

/-- A flag has the value of its last write. -/
theorem flag_setFlags (hids : ∀ p ∈ flags, arch.isFlag p.1 = true) (hid : arch.isFlag id = true)
    (m : Machine) :
    (m.setFlags arch flags).flag arch id =
      flags.foldl (fun v p => if p.1 = id then p.2 else v) (m.flag arch id) := by
  induction flags generalizing m with
  | nil => rfl
  | cons p flags ih =>
    rw [setFlags, List.foldl_cons, ← setFlags, ih (fun q hq => hids q (by simp [hq])),
      flag_setFlag (hids p (by simp)) hid, List.foldl_cons]

theorem byte_setFlags (m : Machine) (arch : Architecture) (flags : List (Nat × Bool))
    (address : Address) : (m.setFlags arch flags).byte address = m.byte address := by
  induction flags generalizing m with
  | nil => rfl
  | cons p flags ih => rw [setFlags, List.foldl_cons, ← setFlags, ih, byte_setFlag]

end

end Machine

/-- A register that is written along with the rest of its root starts where the root does. -/
theorem Architecture.Has.low_eq_zero (h : arch.Has reg)
    (hwhole : reg.isRoot = true ∨ reg.merge = .zeroExtend) : reg.low = 0 := by
  have hall : ∀ reg ∈ arch.registers, reg.isRoot = true ∨ reg.merge = .zeroExtend →
      reg.low = 0 := by
    cases arch <;> decide +kernel
  exact hall reg h.mem_registers hwhole

/-- What is read of a register is what was written to it. -/
theorem Architecture.Has.read_write (h : arch.Has reg) {value : Nat}
    (hlt : value < modulus reg.bits) (parent : Nat) :
    reg.read (reg.write parent value) = value := by
  have hlim : reg.bits ≤ limit := le_trans h.wordBits.2 (by decide)
  have hwhole : reg.isRoot = true ∨ reg.merge = .zeroExtend →
      reg.write parent value = value → reg.read (reg.write parent value) = value := by
    intro hcase hwrite
    rw [hwrite, Register.read, h.low_eq_zero hcase, Nat.shiftRight_zero, truncate_of_lt hlt]
  cases hself : reg.isRoot with
  | true =>
    refine hwhole (.inl hself) ?_
    simp [write, hself, truncate_of_lt hlt]
  | false =>
    cases hmerge : reg.merge with
    | zeroExtend =>
      refine hwhole (.inr hmerge) ?_
      simp [write, hmerge, truncate_of_lt hlt]
    | preserve =>
      apply Nat.eq_of_testBit_eq
      intro i
      rw [Register.read, testBit_truncate hlim, Nat.testBit_shiftRight,
        testBit_write hself hmerge hlim]
      by_cases hi : i < reg.bits
      · simp [hi]
      · simp [hi, testBit_of_lt hlim hlt (Nat.le_of_not_lt hi)]
/-! Flags, the program counter and destinations are apart. -/

/-- The operand is the program counter or a part of it. -/
def Operand.isCounter (arch : Architecture) : Operand → Bool
  | .register reg => arch.isProgramCounter reg
  | _ => false

/-- The operand reads as zero and takes no value. -/
def Operand.isZero (arch : Architecture) : Operand → Bool
  | .register reg => arch.isZeroRegister reg
  | _ => false

theorem X86.isZero_eq (hx86 : arch.isX86 = true) (op : Operand) : op.isZero arch = false := by
  cases op with
  | register reg =>
    cases arch with
    | aarch64 => cases hx86
    | _ => rfl
  | _ => rfl

section

variable {arch : Architecture} {m m' : Machine} {op : Operand} {width n : Nat}
  (inst : Instruction)

theorem Machine.Alike.operandValue (h : Alike arch m m') (hfits : op.Fits arch width) :
    inst.operandValue arch m width op = inst.operandValue arch m' width op := by
  cases op with
  | immediate imm => rfl
  | register reg =>
    simp only [operandValue, registerValue, h.register hfits.1]
  | memory access => exact h.value _ _

theorem Instruction.operandValue_store (hop : op.Target arch width)
    (hcounter : op.isCounter arch = false) (hzero : op.isZero arch = false)
    (hwidth : width ≤ limit) (hn : n < modulus width) :
    inst.operandValue arch (m.store arch op n) width op = n := by
  cases op with
  | immediate imm => cases hop.2
  | register reg =>
    obtain ⟨hreg, rfl⟩ := hop.1
    have hz : arch.isZeroRegister reg = false := hzero
    have hc : arch.isProgramCounter reg = false := hcounter
    simp only [operandValue, registerValue, store, hz, hc, Bool.false_eq_true, if_false,
      Machine.register, root_setRegister]
    exact hreg.read_write hn _
  | memory access =>
    obtain ⟨hbits, hwhole⟩ := hop.1
    have hbytes : 8 * access.bytes = width := by
      unfold Access.bytes
      omega
    refine value_setValue ?_ ?_
    · unfold limit at hwidth
      unfold maxBytes
      omega
    · rw [hbytes, ← modulus_eq hwidth]
      exact hn

theorem Instruction.operandValue_setFlags (hids : ∀ p ∈ flags, arch.isFlag p.1 = true)
    (hop : op.Fits arch width) (hwide : width ≠ 1) :
    inst.operandValue arch (m.setFlags arch flags) width op =
      inst.operandValue arch m width op := by
  cases op with
  | immediate imm => rfl
  | register reg =>
    simp only [operandValue, registerValue, register_setFlags hids hop.1 (hop.2 ▸ hwide)]
  | memory access => exact value_congr fun address _ => m.byte_setFlags arch flags address

theorem Instruction.operandValue_setCounter (hcounter : op.isCounter arch = false) (value : Nat) :
    inst.operandValue arch (m.setRegister arch.programCounter value) width op =
      inst.operandValue arch m width op := by
  cases op with
  | immediate imm => rfl
  | register reg =>
    have hne : arch.programCounter.parent ≠ reg.parent := (beq_eq_false_iff_ne.1 hcounter).symm
    simp only [operandValue, registerValue, register_setRegister_of_ne hne]
  | memory access => exact value_congr fun _ _ => rfl

theorem Machine.flag_store (hid : arch.isFlag id = true) (hop : op.Target arch width)
    (hwide : width ≠ 1) (n : Nat) : (m.store arch op n).flag arch id = m.flag arch id := by
  cases op with
  | immediate imm => rfl
  | register reg =>
    simp only [store]
    split
    · rfl
    · exact flag_setRegister hid hop.1.1 (hop.1.2 ▸ hwide) m n
  | memory access =>
    have hroot : ∀ reg : Register, (m.setValue access.address access.bytes n).register reg =
        m.register reg := fun reg => by rw [register, root_setValue, ← register]
    unfold store flag
    simp only [hroot]

end

/-! Formulas of the x86 flags. -/

namespace View.Forms

variable {V : View} {rules : Rules} {f : Formula} {width value : Nat}

theorem parity (hf : V.Gives f width value) (hwide : 8 ≤ width) :
    V.Forms rules (parity f) 1 (evenParity value).toNat := by
  have hxor : ∀ a b : Bool, xor 1 a.toNat b.toNat = (a ^^ b).toNat := by decide
  have hall : ∀ (l : List Nat), (∀ i ∈ l, i < width) → ∀ {g : Formula} {even : Bool},
      V.Gives g 1 even.toNat →
      V.Forms rules (l.foldlM (fun g i => do
        let bit ← Build.extract i i f
        Build.xor g bit) g) 1 (l.foldl (fun even i => even ^^ value.testBit i) even).toNat := by
    intro l
    induction l with
    | nil => exact fun _ _ _ hg => .pure hg
    | cons i l ih =>
      intro hl g even hg
      refine Build.Makes.bind ((bit hf (hl i (by simp))).bind fun b hb => arith hg .xor hb)
        fun g' hg' => ?_
      rw [ArithOp.apply, hxor] at hg'
      exact ih (fun j hj => hl j (by simp [hj])) hg'
  rw [evenParity_eq]
  refine (flag true).bind fun start hstart => hall (List.range 8) (fun i hi => ?_) hstart
  have := List.mem_range.1 hi
  omega

theorem adjust (hf : V.Gives f width value) (hwide : 4 < width) :
    V.Forms rules (adjust f) 1 (value.testBit 4).toNat := by
  have hlim := hf.width_range.2
  unfold X86.adjust
  rw [hf.width_eq]
  refine (constant (V := V) hf.width_range 0x10).bind fun mask hmask => ?_
  refine (arith hf .and hmask).bind fun masked hmasked => ?_
  refine (compare hmasked .eq hmask).of_eq rfl ?_
  rw [← and_mask hlim hwide]
  rfl

end View.Forms

/-! The x86 flags. -/

namespace X86

/-- The flags that follow from the result alone, in the order of their writes. -/
def resultWrites (st : Status) : List (Nat × Bool) :=
  [(pf, st.parity), (sf, st.sign), (zf, st.zero)]

/-- All status flags, in the order of their writes. -/
def statusWrites (st : Status) : List (Nat × Bool) :=
  [(af, st.adjust), (cf, st.carry), (of, st.overflow)] ++ resultWrites st

/-- The status flags but for carry. -/
def countWrites (st : Status) : List (Nat × Bool) :=
  [(af, st.adjust), (of, st.overflow)] ++ resultWrites st

def status (arch : Architecture) (m : Machine) : Status where
  adjust := m.flag arch af
  carry := m.flag arch cf
  overflow := m.flag arch of
  parity := m.flag arch pf
  sign := m.flag arch sf
  zero := m.flag arch zf

theorem isFlag (h : arch.isX86 = true) (hid : id ∈ statusFlags) : arch.isFlag id = true := by
  have hall : ∀ arch : Architecture, arch.isX86 = true → ∀ id ∈ statusFlags,
      arch.isFlag id = true := by
    intro arch
    cases arch <;> decide +kernel
  exact hall arch h id hid

theorem isFlag_writes (h : arch.isX86 = true) (hsub : ∀ p ∈ flags, p.1 ∈ statusFlags) :
    ∀ p ∈ flags, arch.isFlag p.1 = true := fun p hp => isFlag h (hsub p hp)

end X86

namespace Scene.Runs

variable {S : Scene} {m : Machine}

theorem readFlagRegister (hid : S.arch.isFlag id = true) (hreg : S.arch.register? id = some reg) :
    S.Runs m (Step.readRegister reg) m fun f => S.view.Gives f 1 (m.flag S.arch id).toNat := by
  obtain ⟨again, hagain, hroot, hone, hzero⟩ := register_of_isFlag hid
  obtain rfl : reg = again := Option.some.inj (hreg.symm.trans hagain)
  have hcounter : S.arch.isProgramCounter reg = false := by
    refine beq_eq_false_iff_ne.2 (parent_ne_of_flag hreg hroot hone S.arch.programCounter_has ?_)
    cases S.arch <;> decide
  have hvalue : S.registerValue m reg = (m.flag S.arch id).toNat := by
    rw [registerValue, Instruction.registerValue, hzero, hcounter, if_neg Bool.false_ne_true,
      if_neg Bool.false_ne_true, register_flag hreg hone]
  rw [← hvalue, ← hone]
  exact readRegister (has_of_register? hreg)

theorem readFlag (hid : S.arch.isFlag id = true) :
    S.Runs m (Step.readRegisterId id) m fun f =>
      S.view.Gives f 1 (m.flag S.arch id).toNat := by
  obtain ⟨reg, hreg, -⟩ := register_of_isFlag hid
  refine (register hreg).bind_eq ?_
  exact readFlagRegister hid hreg

theorem writeFlag (hid : S.arch.isFlag id = true) {f : Formula} {b : Bool}
    (hf : S.view.Gives f 1 b.toNat) (comment : String) (tainted : Bool) :
    S.Moves m (Step.writeRegister id f comment tainted) (m.setFlag S.arch id b) := by
  obtain ⟨reg, hreg, -, hone, hzero⟩ := register_of_isFlag hid
  rw [setFlag_eq hreg]
  exact writeRegister hreg hzero (hone.symm ▸ hf) comment tainted

section

variable (hx86 : S.arch.isX86 = true) {o : X86.Outcome} {width a b r : Nat}

include hx86

theorem writeResultFlags {result : Formula} (hresult : S.view.Gives result width r)
    (hwide : 8 ≤ width) {st : Status} (hparity : st.parity = evenParity r)
    (hsign : st.sign = r.testBit (width - 1)) (hzero : st.zero = (r == 0)) (tainted : Bool) :
    S.Moves m (writeResultFlags result tainted) (m.setFlags S.arch (resultWrites st)) := by
  unfold resultWrites
  rw [hparity, hsign, hzero]
  refine form (.parity hresult hwide) fun even heven => ?_
  refine (writeFlag (isFlag hx86 (by decide)) heven _ _).seq ?_
  refine form (.sign hresult) fun sign hsign => ?_
  refine (writeFlag (isFlag hx86 (by decide)) hsign _ _).seq ?_
  refine form (.isZero hresult) fun zero hzero => ?_
  exact writeFlag (isFlag hx86 (by decide)) hzero _ _

variable {c : Nat} (hc : c ≤ 1) (hleft : S.view.Gives o.left width a)
  (hright : S.view.Gives o.right width b)

include hc hleft hright

theorem writeOverflow {kind : Flags.Kind}
    (hresult : S.view.Gives o.result width (combined kind width a b c)) :
    S.Moves m (writeOverflow kind o)
      (m.setFlag S.arch of (Status.combined kind width a b c).overflow) :=
  form (.arith hleft .xor hright) fun _ hdiffer =>
    form (.overflow hc hleft hright hdiffer hresult) fun _ hf =>
      writeFlag (isFlag hx86 (by decide)) hf _ _

variable (hwide : 8 ≤ width)

include hwide

/-- A carry into bit four is what that bit differs by from those of the operands. -/
theorem writeAdjust {kind : Flags.Kind}
    (hresult : S.view.Gives o.result width (combined kind width a b c)) :
    S.Moves m (writeAdjust o) (m.setFlag S.arch af (Status.combined kind width a b c).adjust) := by
  have hlim := hleft.width_range.2
  have hfour : 4 < width := by omega
  refine form (.arith hleft .xor hright) fun differ hdiffer => ?_
  refine form (.arith hdiffer .xor hresult) fun changed hchanged => ?_
  refine form (.adjust hchanged hfour) fun f hf => ?_
  simp only [ArithOp.apply, testBit_xor hlim hfour] at hf
  rw [Status.combined_adjust hlim hleft.lt hc kind hfour] at hf
  exact writeFlag (isFlag hx86 (by decide)) hf _ _

theorem writeFlags (kind : Flags.Kind)
    (hresult : S.view.Gives o.result width (combined kind width a b c)) :
    S.Moves m (writeFlags kind o)
      (m.setFlags S.arch (statusWrites (.combined kind width a b c))) := by
  refine (writeAdjust hx86 hc hleft hright hwide hresult).seq ?_
  refine bind (form (.arith hleft .xor hright) fun _ hdiffer => form (.carry hc hleft hright hdiffer
      hresult) fun _ hf => writeFlag (isFlag hx86 (by decide)) hf _ _) fun _ _ => ?_
  refine (writeOverflow hx86 hc hleft hright hresult).seq ?_
  cases kind <;> exact writeResultFlags hx86 hresult hwide rfl rfl rfl o.tainted

end

end Scene.Runs

/-! The AArch64 flags. -/

namespace AArch64

/-- Values of the flags N, Z, C and V. -/
structure FlagValues where
  n : Bool
  z : Bool
  c : Bool
  v : Bool
  deriving DecidableEq

def flagValues (arch : Architecture) (m : Machine) : FlagValues where
  n := m.flag arch n
  z := m.flag arch z
  c := m.flag arch c
  v := m.flag arch v

/-- The flags, in the order of their writes. -/
def FlagValues.writes (values : FlagValues) : List (Nat × Bool) :=
  [(AArch64.n, values.n), (AArch64.z, values.z), (AArch64.c, values.c), (AArch64.v, values.v)]

/-- The flags of a sum or, with the borrow inverted, of a difference. -/
def FlagValues.ofStatus (inverted : Bool) (st : Status) : FlagValues where
  n := st.sign
  z := st.zero
  c := st.carry ^^ inverted
  v := st.overflow

theorem isFlag (h : arch = .aarch64) (hid : id ∈ [n, z, c, v]) : arch.isFlag id = true := by
  have hall : ∀ id ∈ [n, z, c, v], aarch64.isFlag id = true := by decide +kernel
  subst h
  exact hall id hid

theorem isFlag_writes (h : arch = .aarch64) (values : FlagValues) :
    ∀ p ∈ values.writes, arch.isFlag p.1 = true := by
  have hsub : ∀ p ∈ values.writes, p.1 ∈ [n, z, c, v] := by simp [FlagValues.writes]
  exact fun p hp => isFlag h (hsub p hp)

theorem flagValues_congr {m m' : Machine}
    (h : ∀ id ∈ [n, z, c, v], m.flag arch id = m'.flag arch id) :
    flagValues arch m = flagValues arch m' := by
  unfold flagValues
  rw [h n (by decide), h z (by decide), h c (by decide), h v (by decide)]

theorem flagValues_writes (h : arch = .aarch64) (m : Machine) (values : FlagValues) :
    flagValues arch (m.setFlags arch values.writes) = values := by
  have hflag : ∀ id ∈ [n, z, c, v], (m.setFlags arch values.writes).flag arch id =
      values.writes.foldl (fun w p => if p.1 = id then p.2 else w) (m.flag arch id) :=
    fun id hid => flag_setFlags (isFlag_writes h values) (isFlag h hid) m
  unfold flagValues
  rw [hflag n (by decide), hflag z (by decide), hflag c (by decide), hflag v (by decide)]
  rfl

end AArch64

namespace Scene.Runs

open AArch64 (FlagValues)

variable {S : Scene} {m : Machine} {left right result : Formula} {width a b : Nat}
  (harch : S.arch = .aarch64) (hleft : S.view.Gives left width a)
  (hright : S.view.Gives right width b)

include harch hleft hright

theorem writeFlags_aarch64 (kind : Flags.Kind)
    (hresult : S.view.Gives result width (combined kind width a b 0)) (tainted : Bool) :
    S.Moves m (AArch64.writeFlags (.arithmetic kind) left right result tainted) (m.setFlags S.arch
      (FlagValues.ofStatus (kind = .difference) (.combined kind width a b 0)).writes) := by
  have hone : 0 ≤ 1 := Nat.zero_le 1
  have hnot : ∀ b : Bool, not 1 b.toNat = (b ^^ true).toNat := by decide
  have hsign : (combined kind width a b 0).testBit (width - 1) =
      (Status.combined kind width a b 0).sign := by cases kind <;> rfl
  have hempty : (combined kind width a b 0 == 0) = (Status.combined kind width a b 0).zero := by
    cases kind <;> rfl
  refine form (.sign hresult) fun negative hnegative => ?_
  refine form (.isZero hresult) fun zero hzero => ?_
  rw [hsign] at hnegative
  rw [hempty] at hzero
  refine (writeFlag (AArch64.isFlag harch (by decide)) hnegative _ _).seq ?_
  refine (writeFlag (AArch64.isFlag harch (by decide)) hzero _ _).seq ?_
  refine form (.arith hleft .xor hright) fun differ hdiffer => ?_
  have hcarry : ∀ {rules}, S.view.Forms rules (AArch64.carry kind differ left right result) 1
      ((Status.combined kind width a b 0).carry ^^ decide (kind = .difference)).toNat := by
    intro rules
    refine (View.Forms.carry hone hleft hright hdiffer hresult).bind fun out hout => ?_
    cases kind with
    | sum => exact .pure (by simpa using hout)
    | difference => exact (View.Forms.unary hout .not).of_eq rfl (hnot _)
  refine form hcarry fun carry hcarry => ?_
  refine form (.overflow hone hleft hright hdiffer hresult) fun overflow hoverflow => ?_
  refine (writeFlag (AArch64.isFlag harch (by decide)) hcarry _ _).seq ?_
  exact writeFlag (AArch64.isFlag harch (by decide)) hoverflow _ _

end Scene.Runs

end Concolic
