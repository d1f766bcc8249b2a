import Concolic.Proofs.Coherence
import Concolic.Proofs.Lockstep.Instruction
import Concolic.Proofs.Reachable

/-
  Taint and what it follows.

  Two engines with one taint, whose machines agree where nothing is tainted, process an
  instruction with one result. Afterwards they have one taint again, and their machines
  agree where nothing is tainted then (`untainted_unaffected`). The runs are abreast with
  the tainted places hidden. What is asked of the instruction (`Engine.Traces`) is that it
  writes whole roots, that the addresses it uses are not tainted, and that no bits are
  moved by a count; and of memory that keeps its taint while its bytes are mixed, that it
  is tainted as a whole (`Engine.Unmixed`).

  The last condition cannot be left out: an increment of memory of which one byte is
  tainted carries into bytes that are not (`untainted_affected`). The complement needs no
  such condition, because it is taken byte by byte (`complementMemory`).
-/

namespace Concolic

open Step X86 Comparison Word Architecture Machine Concolic.Frame Context

variable {access : Access} {i opcode : Nat} {op : Operand}

/-! Reading twice. -/

namespace Step

variable {k : Comparison} {modes : Modes} {s s' : Frame} {reg : Register}

/-- What is read of a register does not depend on the pool. -/
theorem readRegister_stable (h : s.engine.Sound k modes) (hreg : k.arch.Has reg) :
    ∃ f, ∀ pool, ∃ pool', readRegister reg (s.withPool pool) = .ok f (s.withPool pool') := by
  have hw := (source_of_has hreg).wordWidth
  have hanswers : ∃ f, Build.Answers s.modes.rules
      (if s.arch.isZeroRegister reg then Build.zero reg.bits
        else if s.arch.isProgramCounter reg then
          Build.constant (counterValue s.arch s.instruction).toNat reg.bits
        else s.symbolic.registerFormula s.machine reg) (.ok f) := by
    split
    · exact ⟨_, .constant hw 0⟩
    · split
      · exact ⟨_, .constant hw _⟩
      · obtain ⟨f, hf, -⟩ := h.agrees.registerFormula (h.arch ▸ hreg) s.modes.rules
        exact ⟨f, hf⟩
  obtain ⟨f, hf⟩ := hanswers
  refine ⟨f, fun pool => ?_⟩
  rw [run_readRegister]
  exact run_build (s := s.withPool pool) hf

theorem operand_eq_ok {s : Frame} (h : operand i s = .ok op s') :
    s.instruction.operands[i]? = some op ∧ s = s' := by
  rw [run_operand] at h
  cases hop : s.instruction.operands[i]? with
  | none =>
    rw [hop] at h
    cases h
  | some op' =>
    rw [hop] at h
    cases h
    exact ⟨rfl, rfl⟩

theorem readPair_same (h : s.engine.Sound k modes)
    (hnames : ∀ reg, .register reg ∈ s.instruction.operands → k.arch.Has reg) {p : Pair}
    (hrun : readPair s = .ok p s') (hsame : p.sameRegister = true) : p.left = p.right := by
  unfold readPair at hrun
  obtain ⟨dst, _, hfound, hrun₁⟩ := of_bind_eq_ok hrun
  obtain ⟨hdst, rfl⟩ := operand_eq_ok hfound
  obtain ⟨src, _, hfound', hrun₂⟩ := of_bind_eq_ok hrun₁
  obtain ⟨hsrc, rfl⟩ := operand_eq_ok hfound'
  obtain ⟨left, s₁, hleft, hrun₃⟩ := of_bind_eq_ok hrun₂
  obtain ⟨right, s₂, hright, hrun₄⟩ := of_bind_eq_ok hrun₃
  cases hrun₄
  cases dst with
  | immediate imm => cases hsame
  | memory access => cases hsame
  | register reg =>
    cases src with
    | immediate imm => cases hsame
    | memory access => cases hsame
    | register other =>
      have hreg := hnames reg (List.mem_of_getElem? hdst)
      obtain rfl : reg = other :=
        hreg.eq_of_id (hnames other (List.mem_of_getElem? hsrc)) (beq_iff_eq.1 hsame)
      obtain ⟨f, hf⟩ := readRegister_stable h hreg
      obtain ⟨pool, hfirst⟩ := hf s.pool
      obtain ⟨pool', hsecond⟩ := hf pool
      have hagain : readSized (.register reg) reg.bits = readRegister reg :=
        if_neg (not_not_intro rfl)
      obtain ⟨rfl, rfl⟩ : f = left ∧ s.withPool pool = s₁ := by
        have heq := hfirst.symm.trans hleft
        cases heq
        exact ⟨rfl, rfl⟩
      have heq := hsecond.symm.trans ((congrFun hagain _).symm.trans hright)
      cases heq
      rfl

end Step

namespace Abreast

open Simulation
open Access (distance)

variable {k : Comparison} {w : Frame × Frame} {taint : Taint}

theorem exchangeable : Exchangeable (abreast k) w := by
  rintro _ _ _ _ ⟨⟨pool, rfl⟩, ⟨pool₁, rfl⟩, hcode, h⟩ ⟨-, ⟨pool', rfl⟩, -⟩
  exact ⟨⟨pool, rfl⟩, ⟨pool', rfl⟩, { __ := hcode }, h.withPool pool pool'⟩

/-- A register that is combined with itself is read as one formula. -/
theorem clears (hk : k.tracked = true) : Clears (abreast k) w := by
  have hnames : ∀ {s t : Frame}, (abreast k).frames w s t →
      ∀ reg, .register reg ∈ s.instruction.operands → k.arch.Has reg := by
    intro s t hst reg hreg
    have hsource : k.Source reg := hst.2.2.1.sources _ hreg
    rwa [Source, if_pos hk] at hsource
  have hlegible : LegiblePair (abreast k) w := ⟨fun _ _ _ _ _ => trivial, fun _ _ _ _ _ => trivial⟩
  refine (readPair_lockstep laws hlegible).remember.mono fun p p' hp => ?_
  obtain ⟨hp, s, t, s', t', hst, hs, ht⟩ := hp
  refine ⟨hp, fun hsame => .inr ⟨?_, ?_⟩⟩
  · exact readPair_same hst.2.2.2.engines.left (hnames hst) hs hsame
  · refine readPair_same hst.2.2.2.engines.right (fun reg hreg => ?_) ht ?_
    · exact hnames hst reg (hst.2.2.1.operands ▸ hreg)
    · rw [← hsame]
      simp only [Pair.sameRegister, hp.dst.eq, hp.src.eq]

/-- The two formulas have the present values that `value` makes of what is read from
memory by each of the machines. -/
def ReadsAs (k : Comparison) (w : Frame × Frame) (access : Access) (value : Nat → Nat)
    (f g : Formula) : Prop :=
  (abreast k).knows w true f g ∧ (1 ≤ access.bytes → access.bytes ≤ 16 →
    w.1.context.Gives f (access.bytes * 8) (value (w.1.machine.accessValue access)) ∧
    w.2.context.Gives g (access.bytes * 8) (value (w.2.machine.accessValue access)))

theorem load_readsAs (access : Access) :
    (abreast k).Reads w (Step.load access) (Step.load access) (ReadsAs k w access id) := by
  refine reads_build fun s t hst => ?_
  have hengines := hst.2.2.2.engines
  refine ⟨_, _, run_load hengines.left.agrees.noArray, run_load hengines.right.agrees.noArray, ?_⟩
  rcases memoryFormula hst access with ⟨f, g, hf, hg, hknows⟩ | hfail
  · refine .inl ⟨f, g, hf, hg, words.raise (Bool.le_true _) hknows, fun hpos hmax => ?_⟩
    obtain ⟨f', hf', hgives⟩ := hengines.left.agrees.memoryFormula s.modes.rules hpos hmax
    obtain ⟨g', hg', hgives'⟩ := hengines.right.agrees.memoryFormula t.modes.rules hpos hmax
    obtain rfl := Except.ok.inj (hf.unique hf')
    obtain rfl := Except.ok.inj (hg.unique hg')
    obtain ⟨⟨pool, rfl⟩, ⟨pool', rfl⟩, -⟩ := hst
    exact ⟨hgives.later fun _ _ h => h, hgives'.later fun _ _ h => h⟩
  · exact .inr hfail

theorem not_readsAs {f g : Formula} (hfg : ReadsAs k w access id f g) :
    (abreast k).Reads w (exec (Exec.build (Build.not f)))
      (exec (Exec.build (Build.not g)))
      (ReadsAs k w access (not (access.bytes * 8))) := by
  refine reads_build fun s t hst => ⟨_, _, rfl, rfl, ?_⟩
  have hengines := hst.2.2.2.engines
  have hcall : Call.Corresponds ((abreast k).knows w true) (.unary .not f) (.unary .not g) :=
    .unary hfg.1
  have hmatches : Build.Matches s.modes.rules t.modes.rules (Build.not f)
      (Build.not g) ((abreast k).knows w true) := .call views_fits hcall
  rcases hmatches with ⟨r, r', hr, hr', hknows⟩ | hfail
  · refine .inl ⟨r, r', hr, hr', hknows, fun hpos hmax => ?_⟩
    obtain ⟨hgives, hgives'⟩ := hfg.2 hpos hmax
    obtain ⟨⟨pool, rfl⟩, ⟨pool', rfl⟩, -⟩ := hst
    have hbounded : w.1.Bounded := hengines.left.agrees.bounded
    have hbounded' : w.2.Bounded := hengines.right.agrees.bounded
    rw [← gives_view (h := hbounded)] at hgives
    rw [← gives_view (h := hbounded')] at hgives'
    obtain ⟨p, hp, hnot⟩ := answers_view (View.Forms.unary hgives .not)
    obtain ⟨q, hq, hnot'⟩ := answers_view (View.Forms.unary hgives' .not)
    obtain rfl := Except.ok.inj (hr.unique hp)
    obtain rfl := Except.ok.inj (hr'.unique hq)
    exact ⟨hnot, hnot'⟩
  · exact .inr hfail

/-- A byte of the complement of what is read from memory rests on that byte alone. -/
theorem byte_not_congr {machine machine' : Machine} {address : Address} (hmax : access.bytes ≤ 16)
    (hin : distance access.address address < access.bytes)
    (h : machine.byte address = machine'.byte address) :
    (not (access.bytes * 8) (machine.accessValue access) >>>
        (8 * distance access.address address)).toUInt8 =
      (not (access.bytes * 8) (machine'.accessValue access) >>>
        (8 * distance access.address address)).toUInt8 := by
  have hlimit : access.bytes * 8 ≤ limit := by
    rw [limit]
    omega
  apply UInt8.toNat_inj.1
  rw [← slice_byte, ← slice_byte]
  refine slice_not_congr hlimit (by omega) (by omega) ?_
  rw [machine.slice_accessValue hmax hin, machine'.slice_accessValue hmax hin, h]

/-- The complement of memory is taken byte by byte: a byte that is not tainted gets a value
that does not depend on the tainted ones beside it. -/
theorem complementMemory (hk : k.tracked = true) (access : Access) :
    (abreast k).Writes w (complement (.memory access)) (complement (.memory access))
      (abreast k).nothing := by
  unfold complement
  refine (load_readsAs access).then fun f g hfg => ?_
  refine (not_readsAs hfg).then fun r r' hr => ?_
  have hassign : (abreast k).Writes w
      (Step.assign (.memory access) r "NOT operation" (isTainted (.memory access)))
      (Step.assign (.memory access) r' "NOT operation" (isTainted (.memory access)))
      fun _ => (abreast k).taint ((abreast k).level w (.memory access)) := by
    intro s t hst
    obtain ⟨⟨pool, rfl⟩, ⟨pool', rfl⟩, hcode, h⟩ := id hst
    have hwrite : Step.Outcomes (fun _ => Abreast k (k.Hides w.1.taint))
        (Written k (k.Hides w.1.taint) (w.1.withPool pool) (w.2.withPool pool'))
        (Step.write (.memory access) r "NOT operation" (w.1.withPool pool))
        (Step.write (.memory access) r' "NOT operation" (w.2.withPool pool')) := by
      refine (h.writeFormulas "NOT operation" hcode.opcode hr.1.left hr.1.right hr.1.width_eq
        fun hwidth => ?_).bind fun _ _ _ _ hw => hw
      have hmax : access.bytes ≤ 16 := hr.1.left.bytes_le hwidth
      refine h.engines.writeBytes (k.tracks hk).1 hr.1.left hr.1.right hwidth
        (hr.1.width_eq ▸ hwidth) fun address hin hshown => ?_
      obtain ⟨hgives, hgives'⟩ := hr.2 (by omega) hmax
      have hvalue : (w.1.withPool pool).context.evaluate r =
        not (access.bytes * 8) (w.1.machine.accessValue access) := hgives.value_eq
      have hvalue' : (w.2.withPool pool').context.evaluate r' =
        not (access.bytes * 8) (w.2.machine.accessValue access) := hgives'.value_eq
      show (((w.1.withPool pool).context.evaluate r) >>> _).toUInt8 =
        (((w.2.withPool pool').context.evaluate r') >>> _).toUInt8
      rw [hvalue, hvalue']
      exact byte_not_congr hmax hin (h.engines.byte_eq hshown)
    exact keepTaint hst hwrite fun _ hh => hh
  exact Laws.dropAnswer words hassign

end Abreast

/-! Instructions that taint follows. -/

/-- A destination that is a register is written with the whole of its root: it is the
root, or what is left of the root becomes zero. -/
def Operand.Whole : Operand → Prop
  | .register reg => reg.isRoot = true ∨ reg.merge = .zeroExtend
  | _ => True

/-- The bytes of an access are all tainted, or none of them is. -/
def Taint.Uniform (t : Taint) (access : Access) : Prop :=
  ∀ a ∈ access.byteAddresses, ∀ b ∈ access.byteAddresses, t.isByte a = true → t.isByte b = true

namespace X86

/-- Taint follows the operation on its operands: no bits are moved by a count, whole
roots are written, the stack pointer is not tainted where it is used, and a third factor
is an immediate. -/
structure Op.Traced (arch : Architecture) (taint : Taint) (operands : List Operand) (op : Op) :
    Prop where
  unshifted : op.shifts = false
  explicit : ∀ i ∈ op.explicitTargets operands.length, ∀ dst, operands[i]? = some dst → dst.Whole
  implicit : ∀ id ∈ op.implicitTargets operands, ∀ reg, arch.register? id = some reg →
    (Operand.register reg).Whole
  stack : op.usesStack = true → taint.isRegister arch.stackPointer = false
  factor : op = .imul → ∀ other, operands[2]? = some other → other.immediate?.isSome = true

/-- Memory that keeps its taint while its bytes are mixed is tainted uniformly. -/
def Op.Unmixed (taint : Taint) (operands : List Operand) (op : Op) : Prop :=
  op.mixes = true → ∀ access, operands[0]? = some (.memory access) → taint.Uniform access

end X86

/-- Taint follows the operation on its operands: whole roots are written, and the target of
a branch whose taint does not count is an immediate. -/
structure AArch64.Op.Traced (operands : List Operand) (op : AArch64.Op) : Prop where
  target : ∀ i, op.explicitTarget = some i → ∀ dst, operands[i]? = some dst → dst.Whole
  branch : ∀ i, op.fixedTarget = some i → ∀ target, operands[i]? = some target →
    target.immediate?.isSome = true

/-- The operands of an instruction that the engine is about to process, with the addresses
that they have in it. -/
def Engine.operands (e : Engine) (inst : Instruction) : List Operand :=
  (Frame.start ⟨e, inst⟩).resolved.instruction.operands

/-- Taint follows the instruction: the registers it names are the architecture's, those of
its addresses are not tainted, and its operation is followed. -/
structure Engine.Traces (e : Engine) (inst : Instruction) : Prop where
  suits : ∀ op ∈ inst.operands, op.Suits e.arch False
  addresses : ∀ access, .memory access ∈ inst.operands →
    e.taint.isOptional access.base = false ∧ e.taint.isOptional access.index = false
  x86 : e.arch.isX86 = true → ∀ op, operation? inst.opcode = some op →
    op.Traced e.arch e.taint (e.operands inst)
  aarch64 : e.arch.isX86 = false → ∀ op, AArch64.operation? inst.opcode = some op →
    op.Traced (e.operands inst)

def Engine.Unmixed (e : Engine) (inst : Instruction) : Prop :=
  e.arch.isX86 = true → ∀ op, operation? inst.opcode = some op →
    op.Unmixed e.taint (e.operands inst)

namespace Abreast

open Simulation

variable {k : Comparison} {s t : Frame} {w : Frame × Frame} {taint : Taint}

theorem whole_register (w : Frame × Frame) (reg : Register) :
    (abreast k).whole w (.register reg) := by
  rintro - htainted place hcovers
  cases place with
  | root id => cases hcovers; exact htainted
  | byte address => exact hcovers.elim

theorem whole_memory (h : w.1.taint.Uniform access) : (abreast k).whole w (.memory access) := by
  rintro - htainted place hcovers
  obtain ⟨first, hfirst, htaint⟩ := (Taint.isOperand_iff _ _).1 htainted
  cases place with
  | root id => exact hcovers.elim
  | byte address =>
    cases first with
    | root id => exact hfirst.elim
    | byte other => exact h other hfirst address hcovers htaint

theorem whole_immediate (w : Frame × Frame) (imm : Immediate) :
    (abreast k).whole w (.immediate imm) := by
  rintro - htainted
  cases htainted

theorem free_immediate (h : op.immediate?.isSome = true) :
    (abreast k).taint ((abreast k).level w op) false false := by
  cases op with
  | immediate imm =>
    have hlevel : (abreast k).level w (.immediate imm) = false := Bool.and_false _
    rw [hlevel]
    exact laws.taint_false
  | register reg => cases h
  | memory access => cases h

theorem writes_of_whole {dst : Operand} (hnames : k.Names dst) (hwhole : dst.Whole) :
    k.Writes dst := by
  cases dst with
  | immediate imm => trivial
  | memory access => trivial
  | register reg => exact ⟨hnames, fun _ => hwhole⟩

theorem at_target (h : ∀ dst, w.1.instruction.operands[i]? = some dst → dst.Whole) :
    (abreast k).At w i (abreast k).target := by
  rintro _ _ dst ⟨⟨pool, rfl⟩, -, hcode, -⟩ hdst
  exact writes_of_whole (hcode.sources dst (List.mem_of_getElem? hdst)) (h dst hdst)

theorem x86_demands (hk : k.tracked = true) {op : Op}
    (htraced : op.Traced k.arch w.1.taint w.1.instruction.operands)
    (hunmixed : op.Unmixed w.1.taint w.1.instruction.operands) :
    op.Demands (abreast k) w where
  reads _ _ _ _ _ _ _ _ _ _ := trivial
  explicit := by
    rintro s t hst i hi dst hdst
    refine at_target (htraced.explicit i ?_) s t dst hst hdst
    obtain ⟨⟨pool, rfl⟩, -⟩ := hst
    exact hi
  implicit := by
    rintro s t ⟨⟨pool, rfl⟩, -⟩ id hid reg hreg
    exact ⟨source_of_has (has_of_register? hreg), fun _ => htraced.implicit id hid reg hreg⟩
  whole := by
    rintro hmixes _ _ dst ⟨⟨pool, rfl⟩, -⟩ hdst
    cases dst with
    | immediate imm => exact whole_immediate w imm
    | register reg => exact whole_register w reg
    | memory access => exact whole_memory (hunmixed hmixes access hdst)
  complement := by
    rintro rfl s t dst hst hdst hsource
    have htarget : (abreast k).target dst :=
      at_target (htraced.explicit 0 (List.mem_singleton_self _)) s t dst hst hdst
    cases dst with
    | immediate imm =>
      exact complement_lockstep laws hsource htarget (whole_immediate w imm) trivial
    | register reg =>
      exact complement_lockstep laws hsource htarget (whole_register w reg) trivial
    | memory access => exact complementMemory hk access
  clears _ := clears hk
  free := by
    rintro hop _ _ other ⟨⟨pool, rfl⟩, -⟩ hother
    exact free_immediate (htraced.factor hop other hother)
  flat hshifts := by
    rw [htraced.unshifted] at hshifts
    cases hshifts
  stack hstack := by
    have hlevel : (abreast k).level w (.register k.arch.stackPointer) = false := by
      show (k.tracked && w.1.taint.isRegister k.arch.stackPointer) = false
      rw [htraced.stack hstack, Bool.and_false]
    refine Op.stack_ends laws covers hstack (stackOpen hlevel) (fun _ _ _ _ _ _ => trivial) ?_
    rintro rfl
    exact at_target (htraced.explicit 0 (List.mem_singleton_self _))
  count hrotates := by
    have hshifts := htraced.unshifted
    cases op with
    | rotate left => cases hshifts
    | _ => cases hrotates
  noFlag _ := False.elim

theorem aarch64_demands {op : AArch64.Op}
    (htraced : op.Traced w.1.instruction.operands) : op.Demands (abreast k) w where
  reads _ _ _ _ _ _ _ := trivial
  target i hi := at_target (htraced.target i hi)
  free := by
    rintro i hi _ _ target ⟨⟨pool, rfl⟩, -⟩ htarget
    exact free_immediate (htraced.branch i hi target htarget)
  short := False.elim

theorem action_meets (hk : k.tracked = true) {action : Step (Option Fault)}
    (haction : k.arch.semantics? opcode = some action)
    (hx86 : k.arch.isX86 = true → ∀ op, operation? opcode = some op →
      op.Traced k.arch w.1.taint w.1.instruction.operands ∧
        op.Unmixed w.1.taint w.1.instruction.operands)
    (haarch64 : k.arch.isX86 = false → ∀ op, AArch64.operation? opcode = some op →
      op.Traced w.1.instruction.operands) : (abreast k).Meets w action action := by
  obtain ⟨op, hx, hop, rfl⟩ | ⟨op, harch, hop, rfl⟩ := semantics?_cases haction
  · obtain ⟨htraced, hunmixed⟩ := hx86 hx op hop
    exact Op.execute_meets laws (x86_demands hk htraced hunmixed) covers hx exchangeable
  · exact (AArch64.Op.execute_ends laws covers
      (aarch64_demands (haarch64 (harch ▸ rfl) op hop))).meets

/-- An instruction that taint follows is executed to frames abreast, if it gives one
result. -/
theorem execute_meets (hk : k.tracked = true) (h : Resolving k taint s t)
    (hx86 : k.arch.isX86 = true → ∀ op, operation? s.instruction.opcode = some op →
      op.Traced k.arch taint s.resolved.instruction.operands ∧
        op.Unmixed taint s.resolved.instruction.operands)
    (haarch64 : k.arch.isX86 = false → ∀ op, AArch64.operation? s.instruction.opcode = some op →
      op.Traced s.resolved.instruction.operands)
    (hanswer : answer (Step.execute s) = answer (Step.execute t)) :
    Step.Outcomes (abreast k).failed (fun _ _ => (abreast k).final)
      (Step.execute s) (Step.execute t) := by
  rw [run_execute, run_execute, ← h.code.opcode, h.code.archLeft, h.code.archRight] at hanswer ⊢
  cases haction : k.arch.semantics? s.instruction.opcode with
  | none => exact laws.final h.frames
  | some action =>
    simp only [haction, run_bind] at hanswer ⊢
    unfold resolved at hx86 haarch64
    rcases h.resolveOperands.cases with
      ⟨e, s₁, t₁, hleft, hright, hfailed⟩ | ⟨_, _, s₁, t₁, hleft, hright, hresolved⟩
    · rw [hleft, hright]
      exact ⟨rfl, hfailed⟩
    · rw [hleft, hright] at hanswer ⊢
      rw [hleft] at hx86 haarch64
      refine action_meets hk haction ?_ haarch64 s₁ t₁ hresolved.frames hanswer
      rw [hresolved.taint_eq]
      exact hx86

end Abreast

/-! Two engines with one taint. -/

/-- Runs under the same modes are compared, and tainted places may have two values. -/
def Comparison.tracking (arch : Architecture) (modes : Modes)
    (h : modes.isOn .concretizeUndefinedRegisters = false) : Comparison where
  arch := arch
  left := modes
  right := modes
  exact := false
  tainted := true
  tracked := true
  shapes hexact := by cases hexact
  pointers _ := rfl
  undefined _ := rfl
  exactly hexact := by cases hexact
  tracks _ := ⟨rfl, rfl, h⟩

namespace Engine

/-- The machines of the two engines agree on the roots and the bytes that the first does not
have tainted, the zero register apart. -/
structure SameUntainted (e e' : Engine) : Prop where
  registers : ∀ reg, e.arch.Has reg → reg.isRoot = true → e.arch.isZeroRegister reg = false →
    e.taint.isRegister reg = false → e.machine.register reg = e'.machine.register reg
  bytes : ∀ address, e.taint.isByte address = false →
    e.machine.byte address = e'.machine.byte address

variable {e e' : Engine}

theorem SameUntainted.register_eq (h : e.SameUntainted e') {reg : Register} (hreg : e.arch.Has reg)
    (hzero : e.arch.isZeroRegister reg = false) (htaint : e.taint.isRegister reg = false) :
    e.machine.register reg = e'.machine.register reg := by
  obtain ⟨root, hroot, hisRoot, -⟩ := hreg.root
  have hhas := has_of_register? hroot
  have hparent := parent_root hroot hisRoot
  have hvalue := h.registers root hhas hisRoot
    ((hhas.isZeroRegister_congr hreg hparent).trans hzero)
    (by rw [Taint.isRegister, hparent]; exact htaint)
  rw [Machine.register, Machine.register, hparent] at hvalue
  exact hreg.read_congr hroot hvalue

section

variable {modes : Modes} (hmodes : modes.isOn .concretizeUndefinedRegisters = false)

theorem Agrees.sound (h : e.Agrees False) {arch : Architecture} (harch : e.arch = arch)
    (hsame : e.modes = modes) : e.Sound (.tracking arch modes hmodes) modes where
  agrees := h
  arch := harch
  modes := hsame
  reads _ hreg := .inl (harch ▸ hreg)

theorem SameUntainted.abreast (h : e.SameUntainted e')
    (hl : e.Sound (.tracking e.arch modes hmodes) modes)
    (hr : e'.Sound (.tracking e.arch modes hmodes) modes) (htaint : e.taint = e'.taint) :
    e.Abreast (.tracking e.arch modes hmodes)
      ((tracking e.arch modes hmodes).Hides e.taint) e' := by
  refine .of_machine rfl hl hr (fun site hsite hshown => ?_) fun _ => htaint
  have huntainted := Bool.eq_false_iff.2 fun ht => hshown ⟨rfl, ht⟩
  cases site with
  | register reg => exact h.register_eq hsite.1 (hsite.2 rfl) huntainted
  | byte address => exact congrArg UInt8.toNat (h.bytes address huntainted)

end

theorem Abreast.sameUntainted {k : Comparison} (h : e.Abreast k (k.Hides e.taint) e') :
    e.SameUntainted e' where
  registers reg hreg _ hzero htaint := by
    rw [h.left.arch] at hreg hzero
    refine h.read_eq (.register reg) ⟨source_of_has hreg, fun _ => hzero⟩ fun hidden => ?_
    exact Bool.false_ne_true (htaint.symm.trans hidden.2)
  bytes address htaint := by
    refine h.byte_eq fun hidden => ?_
    exact Bool.false_ne_true (htaint.symm.trans hidden.2)

end Engine

/-- **Taint is sound.** Two engines of one architecture, under the same modes and with the same
taint, agree with themselves, and with each other where nothing is tainted. They process an
instruction that taint follows, and memory that keeps its taint while its bytes are mixed is
tainted in all of its bytes or in none. If they give the same result then they have one taint
again, and agree with each other where nothing is tainted then. -/
theorem untainted_unaffected {e e' : Engine} {inst : Instruction} {fault : Option Fault}
    {s t : Frame} (hagrees : e.Agrees False) (hagrees' : e'.Agrees False)
    (harch : e'.arch = e.arch) (hmodes : e'.modes = e.modes)
    (hundefined : e.modes.isOn .concretizeUndefinedRegisters = false)
    (htaint : e.taint = e'.taint) (hsame : e.SameUntainted e') (htraces : e.Traces inst)
    (hunmixed : e.Unmixed inst) (hs : Step.process ⟨e, inst⟩ = .ok fault s)
    (ht : Step.process ⟨e', inst⟩ = .ok fault t) :
    s.taint = t.taint ∧ s.engine.SameUntainted t.engine := by
  let k := Comparison.tracking e.arch e.modes hundefined
  have hsound : e.Sound k e.modes := hagrees.sound hundefined rfl rfl
  have hsound' : e'.Sound k e.modes := hagrees'.sound hundefined harch hmodes
  have hstart : Abreast.Resolving k e.taint (Frame.start ⟨e, inst⟩) (Frame.start ⟨e', inst⟩) := by
    refine (hsame.abreast hundefined hsound hsound' htaint).start fun op hop => ?_
    have hsuits := htraces.suits op hop
    cases op with
    | immediate imm => exact ⟨trivial, trivial⟩
    | register reg => exact ⟨Comparison.source_of_has hsuits, trivial⟩
    | memory access =>
      exact ⟨⟨fun reg hreg => Comparison.source_of_has (hsuits.base reg hreg),
        fun reg hreg => Comparison.source_of_has (hsuits.index reg hreg)⟩,
        fun _ => htraces.addresses access hop⟩
  rw [Step.run_process] at hs ht
  obtain ⟨a, s₁, hexecute, hsettle⟩ := Step.of_bind_eq_ok hs
  obtain ⟨b, t₁, hexecute', hsettle'⟩ := Step.of_bind_eq_ok ht
  obtain rfl := Step.settle_eq_ok hsettle
  obtain rfl := Step.settle_eq_ok hsettle'
  have hfinal := Abreast.execute_meets rfl hstart
    (fun hx op hop => ⟨htraces.x86 hx op hop, hunmixed hx op hop⟩) htraces.aarch64
    (by rw [hexecute, hexecute']; rfl)
  rw [hexecute, hexecute'] at hfinal
  have habreast : Frame.Abreast k (k.Hides s₁.taint) s₁ t₁ := hfinal
  obtain ⟨s₂, hrun, hsettles⟩ := Step.run_settle habreast.leftListed fault
  obtain ⟨t₂, hrun', hsettles'⟩ := Step.run_settle habreast.rightListed fault
  obtain ⟨-, rfl⟩ := EStateM.Result.ok.inj (hsettle.symm.trans hrun)
  obtain ⟨-, rfl⟩ := EStateM.Result.ok.inj (hsettle'.symm.trans hrun')
  have hsettled := habreast.settle hsettles hsettles'
  have hkept : s₁.taint = s.taint := by rw [hsettles.engine]
  rw [hkept] at hsettled
  exact ⟨hsettled.taint rfl, hsettled.sameUntainted⟩

/-! Memory that is tainted in part. -/

/-- An access is tainted, and has a value in its first byte. -/
def Engine.tainted (e : Engine) (access : Access) (value : UInt8) : Engine :=
  { e.setMemory access.address [value] with taint := ({} : Taint).setAccess access true }

def partlyTainted (value : UInt8) : Engine := (Engine.new .x86_64).tainted (.fixed 0x1000 8) value

/-- The stack pointer was loaded as from an array, and what it points to is tainted. -/
def taintedStack (value : UInt8) : Engine :=
  (X86.loaded x86_64.stackPointer 8 [0, 0x20]).tainted (.fixed 0x2000 64) value

def onMemory (opcode bits : Nat) : Instruction :=
  .decoded 0x400000 3 opcode [.memory (.fixed 0x1000 bits)] ""

theorem partlyTainted_agrees (value : UInt8) : (partlyTainted value).Agrees False := by
  have hnew : (Engine.new .x86_64).Agrees False := Engine.agrees_new .start .x86_64 rfl (by decide)
  refine (hnew.setMemory 0x1000 [value]).weaken (Engine.Like.weakens ?_)
  exact ⟨rfl, rfl, rfl, rfl, rfl, rfl, rfl, rfl, rfl⟩

section

variable (e : Engine) {access : Access} {bits : Nat}

theorem Engine.sameUntainted_tainted (h : access.address ∈ access.byteAddresses)
    (value value' : UInt8) : (e.tainted access value).SameUntainted (e.tainted access value') where
  registers _ _ _ _ _ := rfl
  bytes address htaint := by
    have hne : access.address ≠ address := by
      rintro rfl
      rw [tainted, Taint.isByte_setAccess, if_pos h] at htaint
      cases htaint
    simp only [tainted, setMemory, setBytes, byte_setByte, if_neg hne]

theorem Engine.traces_tainted {value : UInt8} {op : Op} (hop : operation? opcode = some op)
    (hplain : op = .inc ∨ op = .not ∨ op = .pop) (hx86 : e.arch.isX86 = true) :
    (e.tainted access value).Traces (onMemory opcode bits) where
  suits dst hdst := by
    obtain rfl : dst = .memory (.fixed 0x1000 bits) := List.mem_singleton.1 hdst
    exact { base := nofun, index := nofun, size := False.elim }
  addresses access haccess := by
    obtain rfl : access = .fixed 0x1000 bits := by
      simpa [onMemory, Instruction.decoded, Instruction.maxOperands] using haccess
    exact ⟨rfl, rfl⟩
  x86 _ other hother := by
    obtain rfl : op = other := Option.some.inj (hop.symm.trans hother)
    refine ⟨?_, fun i _ dst hdst => ?_, ?_, fun _ => ?_, ?_⟩
    · rcases hplain with rfl | rfl | rfl <;> rfl
    · -- the addresses of the operands are all that is computed
      have hmem := List.mem_map_of_mem (f := Operand.unplaced) (List.mem_of_getElem? hdst)
      rw [Engine.operands, unplaced_resolved] at hmem
      cases dst with
      | immediate imm => trivial
      | memory access => trivial
      | register reg => cases List.mem_singleton.1 hmem
    · rcases hplain with rfl | rfl | rfl <;> exact fun id hid => by cases hid
    · rw [Taint.isRegister, tainted, Taint.registers_setAccess]
      rfl
    · rcases hplain with rfl | rfl | rfl <;> exact fun h => by cases h
  aarch64 h := by
    rw [show (e.tainted access value).arch = e.arch from rfl, hx86] at h
    cases h

theorem Engine.unmixed_of_op {opcode : Nat} {op : Op} (hop : operation? opcode = some op)
    (hmixes : op.mixes = false) : e.Unmixed (onMemory opcode bits) := by
  intro _ other hother
  obtain rfl : op = other := Option.some.inj (hop.symm.trans hother)
  exact fun h => Bool.noConfusion (hmixes.symm.trans h)

end

theorem partlyTainted_unlike (value value' : UInt8) :
    (partlyTainted value).arch = (partlyTainted value').arch ∧
      (partlyTainted value).modes = (partlyTainted value').modes ∧
      (partlyTainted value).taint = (partlyTainted value').taint := ⟨rfl, rfl, rfl⟩

/-- The complement of the two bytes: the one that is not tainted stays the same in both. -/
theorem untainted_unaffected_complement :
    ∃ (fault : Option Fault) (s t : Frame),
      (partlyTainted 0xff).Agrees False ∧ (partlyTainted 0).Agrees False ∧
      (partlyTainted 0xff).SameUntainted (partlyTainted 0) ∧
      (partlyTainted 0xff).Traces (onMemory 66 16) ∧ (partlyTainted 0xff).Unmixed (onMemory 66 16) ∧
      Step.process ⟨partlyTainted 0xff, onMemory 66 16⟩ = .ok fault s ∧
      Step.process ⟨partlyTainted 0, onMemory 66 16⟩ = .ok fault t ∧
      s.taint = t.taint ∧ s.engine.SameUntainted t.engine := by
  have hop : X86.operation? 66 = some .not := by decide +kernel
  have htraces : (partlyTainted 0xff).Traces (onMemory 66 16) :=
    Engine.traces_tainted _ hop (.inr (.inl rfl)) rfl
  have hunmixed : (partlyTainted 0xff).Unmixed (onMemory 66 16) := Engine.unmixed_of_op _ hop rfl
  have hs : Step.process ⟨partlyTainted 0xff, onMemory 66 16⟩ = .ok none _ :=
    Step.eq_ok_of_answer (by decide +kernel)
  have ht : Step.process ⟨partlyTainted 0, onMemory 66 16⟩ = .ok none _ :=
    Step.eq_ok_of_answer (by decide +kernel)
  have hagrees := partlyTainted_agrees
  have hsame : (partlyTainted 0xff).SameUntainted (partlyTainted 0) :=
    Engine.sameUntainted_tainted _ (by decide) 0xff 0
  have hmodes : (partlyTainted 0xff).modes.isOn .concretizeUndefinedRegisters = false := by decide
  exact ⟨none, _, _, hagrees _, hagrees _, hsame, htraces, hunmixed, hs, ht,
    untainted_unaffected (hagrees _) (hagrees _) (partlyTainted_unlike 0 0xff).1
      (partlyTainted_unlike 0 0xff).2.1 hmodes (partlyTainted_unlike 0xff 0).2.2 hsame htraces
      hunmixed hs ht⟩

/-- An increment of the two bytes carries into the byte that is not tainted, which has two
values then and is still not tainted. So has the stack pointer once what it points to is
popped to the memory that its formula reads. -/
theorem untainted_affected :
    (∃ (fault : Option Fault) (s t : Frame),
      (partlyTainted 0xff).Agrees False ∧ (partlyTainted 0).Agrees False ∧
      (partlyTainted 0xff).SameUntainted (partlyTainted 0) ∧
      (partlyTainted 0xff).Traces (onMemory 39 16) ∧
      Step.process ⟨partlyTainted 0xff, onMemory 39 16⟩ = .ok fault s ∧
      Step.process ⟨partlyTainted 0, onMemory 39 16⟩ = .ok fault t ∧
      s.taint.isByte 0x1001 = false ∧
      s.machine.byte 0x1001 = 1 ∧ t.machine.byte 0x1001 = 0) ∧
    ∃ (fault : Option Fault) (s t : Frame),
      (taintedStack 5).Coherent ∧ (taintedStack 7).Coherent ∧
      (∀ mode ∈ [Mode.memoryArray, .alignedMemory, .concretizeUndefinedRegisters],
        (taintedStack 5).modes.isOn mode = false) ∧
      (taintedStack 5).modes = (taintedStack 7).modes ∧
      (taintedStack 5).taint = (taintedStack 7).taint ∧
      (taintedStack 5).SameUntainted (taintedStack 7) ∧
      (taintedStack 5).Traces (onMemory 68 64) ∧ (taintedStack 5).Unmixed (onMemory 68 64) ∧
      Step.process ⟨taintedStack 5, onMemory 68 64⟩ = .ok fault s ∧
      Step.process ⟨taintedStack 7, onMemory 68 64⟩ = .ok fault t ∧
      s.taint.isRegister x86_64.stackPointer = false ∧
      s.machine.register x86_64.stackPointer = 0xd ∧
      t.machine.register x86_64.stackPointer = 0xf := by
  have hinc : X86.operation? 39 = some .inc := by decide +kernel
  have hpop : X86.operation? 68 = some .pop := by decide +kernel
  have hcoherent (value : UInt8) (h : (taintedStack value).vars.size = 0) :=
    Engine.coherent_of_passes (Context.bounded_of_vars h)
  constructor
  · refine ⟨none, _, _, partlyTainted_agrees _, partlyTainted_agrees _,
      Engine.sameUntainted_tainted _ (by decide) _ _, Engine.traces_tainted _ hinc (.inl rfl) rfl,
      Step.eq_ok_of_answer ?_, Step.eq_ok_of_answer ?_, ?_, ?_, ?_⟩ <;> decide +kernel
  · refine ⟨none, _, _, hcoherent 5 ?_ ?_, hcoherent 7 ?_ ?_, ?_, rfl, rfl,
      Engine.sameUntainted_tainted _ (by decide) _ _,
      Engine.traces_tainted _ hpop (.inr (.inr rfl)) ?_, Engine.unmixed_of_op _ hpop rfl,
      Step.eq_ok_of_answer ?_, Step.eq_ok_of_answer ?_, ?_, ?_, ?_⟩ <;> decide +kernel

end Concolic
