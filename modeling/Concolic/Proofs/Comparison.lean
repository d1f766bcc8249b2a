import Concolic.Proofs.Arithmetic

/-
  Comparisons, and what follows them.

  The conditions of branches, conditional moves and conditional sets are read off the
  flags (`X86.FlagTest.holds`, `AArch64.Condition.holds`). After a comparison the flags
  are those of a difference, so a condition is the relation between the operands that it
  is named for (`X86.Condition.holds_ofDifference`, `AArch64.Condition.holds_ofDifference`),
  and the instruction that follows goes by that relation.
-/

namespace Concolic

open Word AArch64 X86 View Instruction Step Engine Architecture

variable {n width : Nat} {dst : Operand} {imm : Immediate} {m' : Machine}

/-! Relations. -/

namespace X86

def FlagTest.holds (st : Status) : FlagTest → Bool
  | overflow => st.overflow
  | below => st.carry
  | equal => st.zero
  | belowOrEqual => st.carry || st.zero
  | sign => st.sign
  | parity => st.parity
  | less => st.sign ^^ st.overflow
  | lessOrEqual => st.zero || (st.sign ^^ st.overflow)

/-- The relation between two words that a test stands for. -/
def FlagTest.relates (width a b : Nat) : FlagTest → Bool
  | overflow => !Word.fitsSigned width (Word.signed width a - Word.signed width b)
  | below => decide (a < b)
  | equal => a == b
  | belowOrEqual => decide (a ≤ b)
  | sign => (Word.sub width a b).testBit (width - 1)
  | parity => evenParity (Word.sub width a b)
  | less => decide (Word.signed width a < Word.signed width b)
  | lessOrEqual => decide (Word.signed width a ≤ Word.signed width b)

def Condition.holds (c : Condition) (st : Status) : Bool := c.test.holds st ^^ c.negated

/-- The relation between two words that a condition stands for. -/
def Condition.relates (c : Condition) (width a b : Nat) : Bool :=
  c.test.relates width a b ^^ c.negated

end X86

namespace AArch64.Condition

def holds (values : FlagValues) : Condition → Bool
  | eq => values.z
  | ne => !values.z
  | hs => values.c
  | lo => !values.c
  | mi => values.n
  | pl => !values.n
  | vs => values.v
  | vc => !values.v
  | hi => values.c && !values.z
  | ls => !values.c || values.z
  | ge => values.n == values.v
  | lt => values.n != values.v
  | gt => !values.z && values.n == values.v
  | le => values.z || values.n != values.v

def relates (width a b : Nat) : Condition → Bool
  | eq => a == b
  | ne => a != b
  | hs => decide (b ≤ a)
  | lo => decide (a < b)
  | mi => (Word.sub width a b).testBit (width - 1)
  | pl => !(Word.sub width a b).testBit (width - 1)
  | vs => !Word.fitsSigned width (Word.signed width a - Word.signed width b)
  | vc => fitsSigned width (Word.signed width a - Word.signed width b)
  | hi => decide (b < a)
  | ls => decide (a ≤ b)
  | ge => decide (Word.signed width b ≤ Word.signed width a)
  | lt => decide (Word.signed width a < Word.signed width b)
  | gt => decide (Word.signed width b < Word.signed width a)
  | le => decide (Word.signed width a ≤ Word.signed width b)

end AArch64.Condition

theorem Word.signed_inj {width a b : Nat} (ha : a < modulus width) (hb : b < modulus width)
    (h : signed width a = signed width b) : a = b := by
  unfold signed at h
  simp only [truncate_of_lt ha, truncate_of_lt hb] at h
  split at h <;> split at h <;> omega

section

variable {width a b : Nat} (hrange : Formula.WordWidth width) (ha : a < Word.modulus width)
  (hb : b < Word.modulus width)

include hrange ha hb

/-- After a comparison, a test is the relation that it stands for. -/
theorem X86.FlagTest.holds_ofDifference (test : FlagTest) :
    test.holds (.ofDifference width a b 0) = test.relates width a b := by
  have hzero := Status.ofDifference_zero ha hb
  have hless := Status.ofDifference_less hrange.2 ha hb hrange.1
  cases test with
  | overflow => simp [holds, relates, Status.ofDifference]
  | below => simp [holds, relates, Status.ofDifference]
  | equal => exact hzero
  | belowOrEqual =>
    rw [holds, relates, hzero, Bool.eq_iff_iff]
    simp [Status.ofDifference, le_iff_lt_or_eq]
  | sign => simp [holds, relates, Status.ofDifference, difference_zero]
  | parity => simp [holds, relates, Status.ofDifference, difference_zero]
  | less => exact hless
  | lessOrEqual =>
    rw [holds, relates, hzero, hless, Bool.eq_iff_iff]
    simp only [Bool.or_eq_true, beq_iff_eq, decide_eq_true_eq]
    constructor
    · rintro (rfl | hlt)
      · exact le_rfl
      · exact hlt.le
    · intro hle
      rcases hle.lt_or_eq with hlt | heq
      · exact .inr hlt
      · exact .inl (signed_inj ha hb heq)

theorem X86.Condition.holds_ofDifference (c : Condition) :
    c.holds (.ofDifference width a b 0) = c.relates width a b := by
  rw [holds, relates, c.test.holds_ofDifference hrange ha hb]

theorem AArch64.Condition.holds_ofDifference (c : Condition) :
    c.holds (.ofStatus true (.ofDifference width a b 0)) = c.relates width a b := by
  have hzero := Status.ofDifference_zero ha hb
  have hless := Status.ofDifference_less hrange.2 ha hb hrange.1
  have hcarry : (Status.ofDifference width a b 0).carry = decide (a < b) := rfl
  have hsign : (Status.ofDifference width a b 0).sign = (sub width a b).testBit (width - 1) := by
    rw [← difference_zero]
    rfl
  have hoverflow : (Status.ofDifference width a b 0).overflow =
      !Word.fitsSigned width (signed width a - signed width b) := by
    simp [Status.ofDifference]
  have hsame : a = b ↔ signed width a = signed width b := ⟨fun h => h ▸ rfl, signed_inj ha hb⟩
  have hxor : ∀ x y : Bool, (x != y) = (x ^^ y) ∧ (x == y) = !(x ^^ y) := by decide
  cases c with
  | eq => exact hzero
  | ne => exact congrArg (!·) hzero
  | hs =>
    simp only [holds, relates, FlagValues.ofStatus, hcarry, Bool.xor_true, ← decide_not, not_lt]
  | lo => simp [holds, relates, FlagValues.ofStatus, hcarry]
  | mi => exact hsign
  | pl => exact congrArg (!·) hsign
  | vs => exact hoverflow
  | vc => simp [holds, relates, FlagValues.ofStatus, hoverflow]
  | hi | ls =>
    simp only [holds, relates, FlagValues.ofStatus, hcarry, hzero]
    rw [Bool.eq_iff_iff]
    simp
    omega
  | ge => simp only [holds, relates, FlagValues.ofStatus, hxor, hless, ← decide_not, not_lt]
  | lt => simp only [holds, relates, FlagValues.ofStatus, hless]
  | gt | le =>
    simp only [holds, relates, FlagValues.ofStatus, hxor, hless, hzero]
    rw [Bool.eq_iff_iff]
    simp [hsame]
    omega

end

/-! Runs of the conditions. -/

namespace Scene

variable {S : Scene} {m : Machine}

namespace Runs

section

variable (hx86 : S.arch.isX86 = true)

include hx86

theorem signedLess : S.Runs m signedLess m fun f => S.view.Gives f 1
    ((status S.arch m).sign ^^ (status S.arch m).overflow).toNat := by
  refine (readFlag (X86.isFlag hx86 (by decide))).bind fun sign hsign => ?_
  refine (readFlag (X86.isFlag hx86 (by decide))).bind fun overflow hoverflow => ?_
  have hxor : ∀ a b : Bool, xor 1 a.toNat b.toNat = (a ^^ b).toNat := by decide
  exact build fun _ => (Forms.arith hsign .xor hoverflow).of_eq rfl (hxor _ _)

theorem flagTest (test : FlagTest) : S.Runs m test.formula m fun f =>
    S.view.Gives f 1 (test.holds (status S.arch m)).toNat := by
  have hor : ∀ a b : Bool, or 1 a.toNat b.toNat = (a || b).toNat := by decide
  cases test with
  | overflow | below | equal | sign | parity => exact readFlag (isFlag hx86 (by decide))
  | belowOrEqual =>
    refine (readFlag (X86.isFlag hx86 (by decide))).bind fun carry hcarry => ?_
    refine (readFlag (X86.isFlag hx86 (by decide))).bind fun zero hzero => ?_
    exact build fun _ => (Forms.arith hcarry .or hzero).of_eq rfl (hor _ _)
  | less => exact signedLess hx86
  | lessOrEqual =>
    refine (signedLess hx86).bind fun less hless => ?_
    refine (readFlag (X86.isFlag hx86 (by decide))).bind fun zero hzero => ?_
    exact build fun _ => (Forms.arith hzero .or hless).of_eq rfl (hor _ _)

theorem readCondition (c : X86.Condition) : S.Runs m c.read m fun p =>
    S.view.Gives p.1 1 (c.holds (status S.arch m)).toNat := by
  have hnot : ∀ a : Bool, not 1 a.toNat = (a ^^ true).toNat := by decide
  have hformula : S.Runs m c.formula m fun f =>
      S.view.Gives f 1 (c.holds (status S.arch m)).toNat := by
    refine (flagTest hx86 c.test).bind fun f hf => ?_
    unfold X86.Condition.holds
    cases c.negated with
    | true => exact build fun _ => (Forms.unary hf .not).of_eq rfl (hnot _)
    | false =>
      rw [Bool.xor_false]
      exact pure hf
  refine hformula.bind fun f hf => ?_
  refine (anyRegisterTainted fun id hid => ?_).bind fun _ _ => pure hf
  have hflags : c.test.flags ⊆ statusFlags := by cases c.test <;> decide
  obtain ⟨reg, hreg, -⟩ := register_of_isFlag (isFlag hx86 (hflags hid))
  rw [hreg]
  rfl

end

theorem readCondition_aarch64 (harch : S.arch = .aarch64) (c : AArch64.Condition) :
    S.Runs m c.read m fun p =>
      S.view.Gives p.1 1 (c.holds (flagValues S.arch m)).toNat := by
  have hnot : ∀ a : Bool, not 1 a.toNat = (!a).toNat := by decide
  have hand : ∀ a b : Bool, and 1 a.toNat b.toNat = (a && b).toNat := by decide
  have hor : ∀ a b : Bool, or 1 a.toNat b.toNat = (a || b).toNat := by decide
  have heq : ∀ a b : Bool, (a.toNat == b.toNat) = (a == b) := by decide
  have hne : ∀ a b : Bool, (a.toNat != b.toNat) = (a != b) := by decide
  have hflags : S.Runs m readFlags m fun f =>
      S.view.Gives f.n 1 (flagValues S.arch m).n.toNat ∧
      S.view.Gives f.z 1 (flagValues S.arch m).z.toNat ∧
      S.view.Gives f.c 1 (flagValues S.arch m).c.toNat ∧
      S.view.Gives f.v 1 (flagValues S.arch m).v.toNat := by
    refine (readFlag (isFlag harch (by decide))).bind fun n hn => ?_
    refine (readFlag (isFlag harch (by decide))).bind fun z hz => ?_
    refine (readFlag (isFlag harch (by decide))).bind fun c hc => ?_
    exact (readFlag (isFlag harch (by decide))).bind fun v hv => pure ⟨hn, hz, hc, hv⟩
  have hformula : ∀ {f : FlagFormulas} {values : FlagValues},
      S.view.Gives f.n 1 values.n.toNat → S.view.Gives f.z 1 values.z.toNat →
      S.view.Gives f.c 1 values.c.toNat → S.view.Gives f.v 1 values.v.toNat →
      ∀ rules, S.view.Forms rules (c.formula f) 1 (c.holds values).toNat := by
    intro f values hn hz hc hv rules
    have hcompl : ∀ {g : Formula} {b : Bool}, S.view.Gives g 1 b.toNat →
        S.view.Forms rules (Build.not g) 1 (!b).toNat := fun hg =>
      (Forms.unary hg .not).of_eq rfl (hnot _)
    cases c with
    | eq => exact .pure hz
    | ne => exact hcompl hz
    | hs => exact .pure hc
    | lo => exact hcompl hc
    | mi => exact .pure hn
    | pl => exact hcompl hn
    | vs => exact .pure hv
    | vc => exact hcompl hv
    | hi => exact (hcompl hz).bind fun _ h => (Forms.arith hc .and h).of_eq rfl (hand _ _)
    | ls => exact (hcompl hc).bind fun _ h => (Forms.arith h .or hz).of_eq rfl (hor _ _)
    | ge => exact (Forms.compare hn .eq hv).of_eq rfl (congrArg _ (heq _ _))
    | lt => exact (Forms.compare hn .ne hv).of_eq rfl (congrArg _ (hne _ _))
    | gt =>
      refine (hcompl hz).bind fun nonZero hnonZero => ?_
      refine (Forms.compare hn .eq hv).bind fun notLess hnotLess => ?_
      rw [CompareOp.holds, heq] at hnotLess
      exact (Forms.arith hnonZero .and hnotLess).of_eq rfl (hand _ _)
    | le =>
      refine (Forms.compare hn .ne hv).bind fun less hless => ?_
      rw [CompareOp.holds, hne] at hless
      exact (Forms.arith hz .or hless).of_eq rfl (hor _ _)
  refine hflags.bind fun f hf => ?_
  refine form (hformula hf.1 hf.2.1 hf.2.2.1 hf.2.2.2 _) fun g hg => ?_
  refine (anyRegisterTainted fun id hid => ?_).bind fun _ _ => pure hg
  have hsub : c.flags ⊆ [n, z, AArch64.c, v] := by cases c <;> decide
  obtain ⟨reg, hreg, -⟩ := register_of_isFlag (isFlag harch (hsub hid))
  rw [hreg]
  rfl

end Runs

/-! Runs of what follows. -/

/-- The part leads to a machine like `m'`; what the view shows of the engine is left
open, as after a write to memory. -/
def Reaches {α : Type} (S : Scene) (m : Machine) (x : Step α) (m' : Machine) : Prop :=
  Brings (S.At m) x fun _ s' => S.Bare m' s'

theorem Runs.reaches {α β : Type} {x : Step α} {k : α → Step β} {m'' : Machine} {post : α → Prop}
    (hx : S.Runs m x m' post) (hk : ∀ a, post a → S.Reaches m' (k a) m'') :
    S.Reaches m (x >>= k) m'' := Brings.bind hx fun a s h => hk a h.2 s h.1

theorem Reaches.assign {f : Formula} (hdst : dst.Target S.arch width)
    (hf : S.view.Gives f width n) (comment : String) {taint : Step Bool} (htaint : Taints taint) :
    S.Reaches m (discard (assign dst f comment taint)) (m.store S.arch dst n) := by
  intro s hs
  obtain ⟨b, s', hrun, hs', -⟩ := hs.assign hdst hf comment htaint
  refine ⟨(), s', ?_, hs'⟩
  show (Step.assign dst f comment taint >>= fun _ => pure ()) s = _
  rw [run_bind, hrun]
  rfl

/-- The machine that an instruction which is no branch leads to. -/
def past (S : Scene) (m : Machine) : Machine :=
  m.setRegister S.arch.programCounter (truncate S.arch.programCounter.bits S.code.fallThrough.toNat)

theorem Reaches.complete {x : Step Unit} (hx : S.Reaches m x m') :
    ∀ s, S.At m s → ∃ s', complete x s = .ok none s' ∧ S.Bare (S.past m') s' := by
  intro s hs
  obtain ⟨a, s₁, hrun, hs₁⟩ := hx s hs
  obtain ⟨s₂, hadvance, hs₂⟩ := hs₁.advance
  refine ⟨s₂, ?_, hs₂⟩
  unfold Step.complete
  simp only [run_bind, hrun, hadvance]
  rfl

section

variable (hx86 : S.arch.isX86 = true) (c : X86.Condition)

include hx86

theorem Runs.jumpIf (htarget : S.code.operands[0]? = some (.immediate imm)) :
    S.Moves m (jumpIf c) (m.setRegister S.arch.programCounter
      (if c.holds (status S.arch m) then imm.sized S.arch.programCounter.bits
        else truncate S.arch.programCounter.bits S.code.fallThrough.toNat)) := by
  have hwidth : S.arch.addressWidth = S.arch.programCounter.bits := by
    cases S.arch <;> decide
  have hfits : ∀ width, (Operand.immediate imm).Fits S.arch width := fun _ => trivial
  refine arch.bind_eq ?_
  refine (readCondition hx86 c).bind fun p hp => ?_
  refine (operand htarget).bind_eq ?_
  refine (readSized (hfits _) S.arch.addressWidth_range).bind fun target htargetGives => ?_
  refine (choose hp htargetGives).bind fun chosen hchosen => ?_
  refine (isTainted _).bind fun tainted _ => ?_
  have hjump := jump (m := m) hchosen (p.2 || tainted) true
  rw [hwidth] at hjump hchosen
  rwa [truncate_of_lt hchosen.lt] at hjump

theorem Reaches.setIf (hdst : S.code.operands[0]? = some dst) (htarget : dst.Target S.arch width)
    (hrange : Formula.WordWidth width) :
    S.Reaches m (setIf c) (m.store S.arch dst (c.holds (status S.arch m)).toNat) := by
  refine (Runs.readCondition hx86 c).reaches fun p hp => ?_
  refine (Runs.operand hdst).reaches fun found hfound => ?_
  subst hfound
  rw [htarget.bits]
  refine (Runs.build fun _ => Forms.zeroExtend hp hrange.1 hrange.2).reaches fun value hvalue => ?_
  exact assign htarget hvalue _ (taints_setTaint _ _)

theorem Reaches.moveIf {dst src : Operand} (hfirst : S.code.operands[0]? = some dst)
    (hsecond : S.code.operands[1]? = some src) (htarget : dst.Target S.arch width)
    (hsrc : src.Fits S.arch width) (hrange : Formula.WordWidth width) :
    S.Reaches m (moveIf c) (m.store S.arch dst
      (if c.holds (status S.arch m) then S.code.operandValue S.arch m width src
        else S.code.operandValue S.arch m width dst)) := by
  refine (Runs.readCondition hx86 c).reaches fun q hq => ?_
  refine (Runs.readPair hfirst hsecond htarget.1 htarget.bits hsrc hrange).reaches fun p hp => ?_
  obtain ⟨rfl, rfl, hleft, hright⟩ := hp
  refine (Runs.build fun _ => Forms.ite hq hright hleft).reaches fun value hvalue => ?_
  refine (Runs.evaluate hq).reaches fun moves _ => ?_
  refine (Runs.isTainted p.dst).reaches fun _ _ => (Runs.isTainted p.src).reaches fun _ _ => ?_
  exact assign htarget hvalue _ (taints_setTaint _ _)

end

theorem Runs.branchIf (harch : S.arch = .aarch64) (c : AArch64.Condition)
    (htarget : S.code.operands[0]? = some (.immediate imm)) :
    S.Moves m (branchIf c) (m.setRegister S.arch.programCounter
      (if c.holds (flagValues S.arch m) then imm.sized S.arch.programCounter.bits
        else truncate S.arch.programCounter.bits S.code.fallThrough.toNat)) := by
  have hwidth : targetWidth = S.arch.programCounter.bits := by
    rw [harch]
    decide
  have hrange : Formula.WordWidth targetWidth := by decide
  have hfits : ∀ width, (Operand.immediate imm).Fits S.arch width := fun _ => trivial
  refine (readCondition_aarch64 harch c).bind fun p hp => ?_
  refine (operand htarget).bind_eq ?_
  refine (readSized (hfits _) hrange).bind fun target htargetGives => ?_
  refine (choose hp htargetGives).bind fun chosen hchosen => ?_
  have hjump := jump (m := m) hchosen p.2 true
  rw [hwidth] at hjump hchosen
  rwa [truncate_of_lt hchosen.lt] at hjump

end Scene

/-! Whole instructions. -/

theorem Engine.process_reaches {e : Engine} {V : View} (hshows : V.Shows e) {inst : Instruction}
    {action : Step (Option Fault)} (hsemantics : e.arch.semantics? inst.opcode = some action)
    (hops : ∀ op ∈ inst.operands, op.Resolves e.arch)
    (haction : ∀ s, (e.scene V inst).At e.machine s →
      ∃ s', action s = .ok none s' ∧ (e.scene V inst).Bare m' s') :
    ∃ s', process ⟨e, inst⟩ = .ok none s' ∧ Machine.Alike e.arch m' s'.machine := by
  obtain ⟨s, s', hs, hrun, hsettles⟩ :=
    process_runs hshows hsemantics hops haction fun s hs => hs.listed
  exact ⟨s', hrun, hsettles.weakens.machine ▸ hs.machine⟩

/-- A branch leaves its target in the program counter. -/
theorem Machine.Alike.counter {arch : Architecture} {m : Machine}
    (h : Alike arch (m.setRegister arch.programCounter n) m')
    (hn : n < modulus arch.programCounter.bits) : m'.register arch.programCounter = n := by
  have hpc := arch.programCounter_has
  have hroot := arch.isRoot_programCounter
  rw [← h.register hpc]
  exact register_setRegister hroot (hpc.whole hroot).1 hn m

/-- The instruction completes with `value` written to a destination and the program
counter moved past it. -/
def Engine.Writes (e : Engine) (inst : Instruction) (dst : Operand) (width value : Nat) : Prop :=
  ∃ s', process ⟨e, inst⟩ = .ok none s' ∧
    Machine.Alike e.arch ((e.machine.store e.arch (inst.placed e.arch e.machine dst)
      value).setRegister e.arch.programCounter
        (truncate e.arch.programCounter.bits inst.fallThrough.toNat)) s'.machine ∧
    (dst.isCounter e.arch = false → dst.isZero e.arch = false →
      inst.operandValue e.arch s'.machine width (inst.placed e.arch e.machine dst) = value)

/-- The instruction goes by whether a condition holds: a branch to an immediate sets the
program counter to the target or to what follows, a set writes one or zero, and a move
writes the source or what was there. -/
structure X86.GoesBy (e : Engine) (c : X86.Condition) (holds : Bool) (inst : Instruction) :
    Prop where
  jump : X86.operation? inst.opcode = some (.jumpIf c) →
    ∀ imm, inst.operands[0]? = some (.immediate imm) →
    ∃ s', process ⟨e, inst⟩ = .ok none s' ∧
      s'.machine.register e.arch.programCounter =
        if holds then imm.sized e.arch.programCounter.bits
        else truncate e.arch.programCounter.bits inst.fallThrough.toNat
  set : X86.operation? inst.opcode = some (.setIf c) → ∀ dst width,
    inst.operands[0]? = some dst → dst.Target e.arch width → Formula.WordWidth width →
    e.Writes inst dst width holds.toNat
  move : X86.operation? inst.opcode = some (.moveIf c) → ∀ dst src width,
    inst.operands[0]? = some dst → inst.operands[1]? = some src → dst.Target e.arch width →
    src.Fits e.arch width → Formula.WordWidth width →
    e.Writes inst dst width (if holds then inst.argument e.arch e.machine width src
      else inst.argument e.arch e.machine width dst)

section

variable {e : Engine} {V : View} (hshows : V.Shows e) {inst : Instruction}
  (hops : ∀ op ∈ inst.operands, op.Resolves e.arch)

include hshows hops

/-- An instruction that leads to a stored value has written it, and the value is still there
when the program counter has moved on. -/
theorem Engine.process_writes {x : Step Unit}
    (hsemantics : e.arch.semantics? inst.opcode = some (complete x))
    (hx : (e.scene V inst).Reaches e.machine x
      (e.machine.store e.arch (inst.placed e.arch e.machine dst) n))
    (htarget : dst.Target e.arch width) (hrange : Formula.WordWidth width)
    (hn : n < modulus width) : e.Writes inst dst width n := by
  obtain ⟨s', hrun, halike⟩ := process_reaches hshows hsemantics hops hx.complete
  have htarget' := htarget.placed (m := e.machine) inst
  refine ⟨s', hrun, halike, fun hcounter hzero => ?_⟩
  rw [← halike.operandValue inst htarget'.1]
  refine (operandValue_setCounter inst ((Operand.isCounter_placed inst).trans hcounter) _).trans ?_
  exact operandValue_store inst htarget'
    ((Operand.isCounter_placed inst).trans hcounter)
    ((Operand.isZero_placed inst).trans hzero) hrange.2 hn

theorem X86.goesBy_status (hx86 : e.arch.isX86 = true) (c : Condition) :
    GoesBy e c (c.holds (status e.arch e.machine)) inst := by
  have hsemantics : ∀ {op : Op}, operation? inst.opcode = some op →
      e.arch.semantics? inst.opcode = some op.execute := fun h => by
    rw [semantics?_x86 hx86, h, Option.map_some]
  refine ⟨fun hop imm himm => ?_, fun hop dst width hdst htarget hrange => ?_,
    fun hop dst src width hdst hsrc htarget hfits hrange => ?_⟩
  · obtain ⟨s', hrun, -, halike, -⟩ := process_completes hshows (hsemantics hop) hops
      (Scene.Runs.completeBranch (Scene.Runs.jumpIf hx86 c (scene_operand himm)))
    refine ⟨s', hrun, halike.counter ?_⟩
    split
    · exact signExtend_lt _ _ _
    · exact truncate_lt _ _
  · refine process_writes hshows hops (hsemantics hop)
      (Scene.Reaches.setIf hx86 c (scene_operand hdst) (htarget.placed inst) hrange)
      htarget hrange ?_
    rw [modulus_eq hrange.2]
    exact lt_of_lt_of_le (Bool.toNat_lt _) (Nat.pow_le_pow_right two_pos hrange.1)
  · refine process_writes hshows hops (hsemantics hop) (Scene.Reaches.moveIf hx86 c
      (scene_operand hdst) (scene_operand hsrc) (htarget.placed inst)
      (hfits.placed inst) hrange) htarget hrange ?_
    split
    · exact inst.argument_lt hfits hrange e.machine
    · exact inst.argument_lt htarget.1 hrange e.machine

theorem AArch64.process_branchIf (harch : e.arch = .aarch64) {c : Condition}
    (hop : operation? inst.opcode = some (.branchIf c))
    (himm : inst.operands[0]? = some (.immediate imm)) :
    ∃ s', process ⟨e, inst⟩ = .ok none s' ∧
      s'.machine.register e.arch.programCounter =
        if c.holds (flagValues e.arch e.machine)
        then imm.sized e.arch.programCounter.bits
        else truncate e.arch.programCounter.bits inst.fallThrough.toNat := by
  have hplaced : (e.scene V inst).code.operands[0]? = some (.immediate imm) := by
    simp only [scene, List.getElem?_map, himm, Option.map_some, placed]
  have hsemantics : e.arch.semantics? inst.opcode = some (Op.branchIf c).execute := by
    rw [harch, semantics?_aarch64, hop, Option.map_some]
  obtain ⟨s', hrun, -, halike, -⟩ := process_completes hshows hsemantics hops
    (Scene.Runs.completeBranch (Scene.Runs.branchIf harch c hplaced))
  refine ⟨s', hrun, halike.counter ?_⟩
  split
  · exact signExtend_lt _ _ _
  · exact truncate_lt _ _

end

/-- A comparison decides what follows. In a coherent engine a comparison completes, on
x86 and on AArch64, and the conditional instruction that comes next goes by the relation
between the values compared that its condition is named for. -/
theorem comparison_decides {e : Engine} (hcoherent : e.Coherent)
    (harray : e.modes.isOn .memoryArray = false) (hwhole : e.modes.isOn .alignedMemory = false)
    {first : Instruction} (hops : ∀ op ∈ first.operands, op.Resolves e.arch) {width : Nat}
    (hwide : 8 ≤ width) (hlim : width ≤ 128) {left right : Operand} :
    (e.arch.isX86 = true → X86.operation? first.opcode = some .cmp →
      X86.Arithmetic.cmp.Takes e.arch width first.operands left right →
      ∃ s, Step.process ⟨e, first⟩ = .ok none s ∧ s.arch = e.arch ∧
        ∀ (c : X86.Condition) (inst : Instruction), (∀ op ∈ inst.operands, op.Resolves e.arch) →
          X86.GoesBy s.engine c (c.relates width (first.argument e.arch e.machine width left)
            (first.argument e.arch e.machine width right)) inst) ∧
    (e.arch = .aarch64 → AArch64.operation? first.opcode = some .cmp →
      AArch64.Arithmetic.cmp.Takes e.arch width first.operands left left right →
      ∃ s, Step.process ⟨e, first⟩ = .ok none s ∧
        ∀ (c : AArch64.Condition) (inst : Instruction) (imm : Immediate),
          AArch64.operation? inst.opcode = some (.branchIf c) →
          inst.operands[0]? = some (.immediate imm) →
          (∀ op ∈ inst.operands, op.Resolves e.arch) →
          ∃ s', Step.process ⟨s.engine, inst⟩ = .ok none s' ∧
            s'.machine.register e.arch.programCounter =
              if c.relates width (first.argument e.arch e.machine width left)
                (first.argument e.arch e.machine width right)
              then imm.sized e.arch.programCounter.bits
              else Word.truncate e.arch.programCounter.bits inst.fallThrough.toNat) := by
  have hrange : Formula.WordWidth width := ⟨by omega, hlim⟩
  have hshows : (e.present hcoherent.bounded e.Steady).Shows e := hcoherent.shows id harray hwhole
  constructor
  · intro hx86 hop htakes
    have hkind : X86.operation? first.opcode = some X86.Arithmetic.cmp.op := hop
    obtain ⟨s, hrun, harch, halike, hshows'⟩ := X86.process_arithmetic hshows hops hx86 hwide hlim
      hkind htakes fun h => absurd rfl h
    refine ⟨s, hrun, harch, fun c inst hinst => ?_⟩
    have hstatus : X86.status s.arch s.machine = .ofDifference width
        (first.argument e.arch e.machine width left)
        (first.argument e.arch e.machine width right) 0 := by
      rw [harch, ← X86.status_congr fun id _ => halike.flag id]
      exact X86.Arithmetic.status_after hx86 hwide (fun h => absurd rfl h) _ _ _
    rw [← c.holds_ofDifference hrange (first.argument_lt htakes.fits hrange e.machine)
      (first.argument_lt (htakes.second rfl).2 hrange e.machine), ← hstatus]
    exact X86.goesBy_status hshows' (harch ▸ hinst) (harch ▸ hx86) c
  · intro haarch64 hop htakes
    have hkind : AArch64.operation? first.opcode = some AArch64.Arithmetic.cmp.op := hop
    obtain ⟨s, hrun, harch, halike, hshows'⟩ := AArch64.process_arithmetic hshows hops haarch64
      hrange hkind htakes fun h => absurd rfl h
    refine ⟨s, hrun, fun c inst imm hbranch himm hinst => ?_⟩
    have hflags : AArch64.flagValues s.arch s.machine = .ofStatus true
        (.ofDifference width (first.argument e.arch e.machine width left)
          (first.argument e.arch e.machine width right) 0) := by
      rw [harch, ← AArch64.flagValues_congr fun id _ => halike.flag id]
      exact AArch64.Arithmetic.flagValues_after haarch64 _ _ _
    rw [← c.holds_ofDifference hrange (first.argument_lt htakes.leftFits hrange e.machine)
      (first.argument_lt htakes.rightFits hrange e.machine), ← hflags, ← harch]
    exact AArch64.process_branchIf hshows' (harch ▸ hinst) (harch.trans haarch64) hbranch himm

def compareByte : Instruction :=
  .decoded 0x400000 2 29 [.register accumulatorByte, .immediate ⟨1, 8⟩] ""

def leastByte : Engine := Action.run (.new .x86_64)
  [.setRegister accumulatorByte 0x80, .symbolizeRegister accumulatorByte]

/-- The least signed byte is less than one, and not below it; zero is below one. -/
theorem comparison_decides_compareByte :
    (∃ s, Step.process ⟨leastByte, compareByte⟩ = .ok none s ∧
      (∃ s', Step.process ⟨s.engine, .decoded 0x400002 2 48 [.immediate ⟨0x400100, 64⟩] ""⟩ =
          .ok none s' ∧
        s'.machine.register Architecture.x86_64.programCounter = 0x400100) ∧
      s.engine.Writes (.decoded 0x400002 3 78 [.register X86.accumulatorByte] "")
        (.register X86.accumulatorByte) 8 0) ∧
    ∃ s, Step.process ⟨.new .aarch64, compareWord⟩ = .ok none s ∧
      ∃ s', Step.process ⟨s.engine, .decoded 0x400004 4 9 [.immediate ⟨0x400100, 64⟩] ""⟩ =
          .ok none s' ∧
        s'.machine.register Architecture.aarch64.programCounter = 0x400100 := by
  constructor
  · obtain ⟨hagrees, harch⟩ : leastByte.Agrees False ∧ leastByte.arch = .x86_64 := by
      refine Action.run_agrees _ (agrees_new .start .x86_64
        (rfl : Modes.initial.isOn .memoryArray = false) (by decide)) ?_ (by simp)
      simp only [List.forall_mem_cons]
      exact ⟨trivial, ⟨accumulatorByte_has, .inr (by decide +kernel)⟩, by simp⟩
    have hresolves : ∀ op ∈ compareByte.operands, op.Resolves leastByte.arch :=
      decoded_two trivial trivial
    have htakes : X86.Arithmetic.cmp.Takes leastByte.arch 8 compareByte.operands
        (.register X86.accumulatorByte) (.immediate ⟨1, 8⟩) :=
      ⟨rfl, fun _ => ⟨rfl, trivial⟩, ⟨harch ▸ X86.accumulatorByte_has, by decide +kernel⟩,
        by decide +kernel, fun _ => rfl⟩
    obtain ⟨s, hrun, hsame, hnext⟩ := (comparison_decides hagrees.coherent (by decide +kernel)
      (by decide +kernel) hresolves (by decide : 8 ≤ 8) (by decide)).1 (by decide +kernel)
      (by decide +kernel) htakes
    have hless := (hnext ⟨.less, false⟩ (.decoded 0x400002 2 48 [.immediate ⟨0x400100, 64⟩] "")
      (decoded_one trivial)).jump (by decide +kernel) ⟨0x400100, 64⟩ rfl
    have hbelow := (hnext ⟨.below, false⟩ (.decoded 0x400002 3 78 [.register X86.accumulatorByte] "")
      (decoded_one trivial)).set (by decide +kernel) (.register X86.accumulatorByte) 8 rfl
      ⟨⟨hsame ▸ harch ▸ X86.accumulatorByte_has, by decide +kernel⟩, rfl⟩ (by decide)
    rw [hsame, harch] at hless
    refine ⟨s, hrun, ?_, ?_⟩
    · obtain ⟨s', hrun', hcounter⟩ := hless
      exact ⟨s', hrun', hcounter.trans (by decide +kernel)⟩
    · have hzero : (X86.Condition.relates ⟨.below, false⟩ 8 (compareByte.argument leastByte.arch
          leastByte.machine 8 (.register X86.accumulatorByte)) (compareByte.argument
          leastByte.arch leastByte.machine 8 (.immediate ⟨1, 8⟩))).toNat = 0 := by
        decide +kernel
      rwa [hzero] at hbelow
  · have hagrees : (Engine.new .aarch64).Agrees False :=
      Engine.agrees_new .start .aarch64 rfl (by decide)
    have hresolves : ∀ op ∈ compareWord.operands, op.Resolves .aarch64 :=
      decoded_two trivial trivial
    obtain ⟨s, hrun, hnext⟩ := (comparison_decides hagrees.coherent rfl rfl hresolves
      (by decide : 8 ≤ 64) (by decide)).2 rfl (by decide +kernel)
      ⟨fun h => absurd rfl h, rfl, rfl, ⟨Architecture.aarch64.stackPointer_has, by decide⟩,
        trivial, fun _ => by decide⟩
    obtain ⟨s', hrun', hcounter⟩ := hnext .lo
      (.decoded 0x400004 4 9 [.immediate ⟨0x400100, 64⟩] "") ⟨0x400100, 64⟩ (by decide +kernel) rfl
      (decoded_one trivial)
    exact ⟨s, hrun, s', hrun', hcounter.trans (by decide +kernel)⟩

end Concolic
