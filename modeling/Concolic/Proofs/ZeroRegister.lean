import Concolic.Proofs.Operations
import Concolic.Proofs.Replay
import Concolic.Proofs.TaintFlow

/-
  The zero register.

  A write to the zero register is discarded: however an instruction ends, the value and the
  binding of the root stay (`Frame.process_keeps_zero`), and so they do over any run of
  instructions. Its taint is not discarded: as any destination, it takes the taint of the
  sources (`zero_register_keeps_taint`). So the taint stays as well where no instruction has
  a zero register as its destination. A copy of a zero register is zero, and takes its taint
  over (`Engine.process_copy_zero`).
-/

namespace Concolic

open Architecture AArch64 Step Engine AArch64

variable {f : Formula}

/-- The operation writes to no zero register. -/
def Instruction.SparesZero (inst : Instruction) : Prop :=
  ∀ op i reg, operation? inst.opcode = some op → op.explicitTarget = some i →
    inst.operands[i]? = some (.register reg) → aarch64.isZeroRegister reg = false

/-- The root of the zero registers is as it was, and so is its taint if they are spared. -/
structure Engine.KeepsZero (spared : Prop) (e e' : Engine) : Prop where
  value : e'.machine.root xzr = e.machine.root xzr
  cell : e'.symbolic.cell? (.root xzr) = e.symbolic.cell? (.root xzr)
  taint : spared → e'.taint.isPlace (.root xzr) = e.taint.isPlace (.root xzr)

theorem Engine.KeepsZero.trans {spared : Prop} {a b c : Engine} (h₁ : a.KeepsZero spared b)
    (h₂ : b.KeepsZero spared c) : a.KeepsZero spared c :=
  ⟨h₂.value.trans h₁.value, h₂.cell.trans h₁.cell, fun h => (h₂.taint h).trans (h₁.taint h)⟩

/-! Writes to the zero register. -/

namespace Frame

variable {s s' : Frame} {spared : Prop}

/-- What an instruction keeps up from its start: the root of the zero registers is as it
was. -/
def zeroKept (spared : Prop) (s₀ : Frame) : Upkeep where
  start := s₀
  words := False
  bytes := False
  target dst := dst.Known ∧ (spared → ¬ dst.Covers (.root xzr))
  holds s := s₀.engine.KeepsZero spared s.engine
  final s := s₀.engine.KeepsZero spared s.engine
  failed s := s₀.engine.KeepsZero spared s.engine

/-- A register that is no zero register lies in another root. -/
theorem spares_of_isZeroRegister {reg : Register} (hreg : reg.Known)
    (h : aarch64.isZeroRegister reg = false) : ¬ (Operand.register reg).Covers (.root xzr) := by
  intro hparent
  have hzero := hreg.parent_eq_xzr.1 hparent
  have hnone : ¬ (reg.id = xzr ∨ reg.id = wzr) := by simpa [isZeroRegister] using h
  exact hnone hzero

section

variable (harch : s.arch = .aarch64)

include harch

theorem zeroKept_laws : (s.zeroKept spared).Laws where
  words := id
  bytes := False.elim
  known h := h.1
  root {reg} hreg _ hzero := by
    have hknown : reg.Known := ⟨_, hreg⟩
    exact ⟨hknown, fun _ => spares_of_isZeroRegister hknown (harch ▸ hzero)⟩
  final h := h.holds
  failed h := h.holds
  quiet h hs := by
    obtain ⟨pool, array, rfl⟩ := hs
    exact ⟨h.holds.value, h.holds.cell, h.holds.taint⟩
  fresh h _ := ⟨h.holds.value, h.holds.cell, h.holds.taint⟩
  record {s' t f origin comment m} h hstores hs := by
    have hsame := hs.sameAt hstores fun hcovers =>
      hstores.not_discards hcovers ⟨h.arch.trans harch, rfl⟩
    refine h.holds.trans ⟨hsame.value, hsame.cell, fun _ => ?_⟩
    rw [hs.engine]
    rfl
  retaint b h hdst _ := ⟨h.holds.value, h.holds.cell, fun hspared =>
    ((Taint.isPlace_setOperand _ _ _ _).trans (if_neg (hdst.2 hspared))).trans
      (h.holds.taint hspared)⟩
  stamp h hs := ⟨h.holds.value, (hs.cell? _).trans h.holds.cell, h.holds.taint⟩
  steer branch taken next pool constraints h _ :=
    have hkept := ⟨h.holds.value, h.holds.cell, h.holds.taint⟩
    ⟨hkept, hkept⟩
  torn {s' f access comment m} h hstores _ _ := by
    have hspared : ¬ (Origin.memory access).Covers (.root xzr) := fun hcovers =>
      hstores.not_discards hcovers ⟨h.arch.trans harch, rfl⟩
    refine ⟨?_, (Symbolic.cell?_bindOrigin _ _ _ hspared).trans h.holds.cell, h.holds.taint⟩
    cases hstores with
    | memory => exact (Machine.root_setValue _ _ _ _ _).trans h.holds.value

/-- Instructions that spare the zero registers write to what is none of them. -/
theorem zeroKept_opens (hspares : spared → s.instruction.SparesZero) {s₁ : Frame}
    (hresolve : resolveOperands s = .ok () s₁) :
    (s.zeroKept spared).alone.Opens s₁ s.instruction.opcode where
  target hx86 := by
    rw [show (s.zeroKept spared).alone.arch = .aarch64 from harch] at hx86
    cases hx86
  whole hx86 := by
    rw [show (s.zeroKept spared).alone.arch = .aarch64 from harch] at hx86
    cases hx86
  explicit _ op hop i hi := by
    rintro s' - dst ⟨-, hrests, hheld⟩ hdst
    have hknown := hheld.operands dst (List.mem_of_getElem? hdst)
    refine ⟨hknown, fun hspared => ?_⟩
    cases dst with
    | register reg =>
      have hunplaced := s.unplaced_resolved
      rw [hrests.instruction] at hdst
      rw [resolved, hresolve] at hunplaced
      have hsame := congrArg (·[i]?) hunplaced
      simp only [after, List.getElem?_map, hdst, Option.map_some] at hsame
      obtain ⟨source, hsource, hregister⟩ := Option.map_eq_some_iff.1 hsame.symm
      cases source with
      | register other =>
        cases hregister
        exact spares_of_isZeroRegister hknown (hspares hspared op i _ hop hi hsource)
      | _ => cases hregister
    | _ => exact id

/-- However an instruction ends, the value and the binding of the zero register stay, and its
taint if the instruction spares it. -/
theorem process_keeps_zero (hoperands : ∀ op ∈ s.instruction.operands, op.Known)
    (hgrounded : s.Grounded False False) (hspares : spared → s.instruction.SparesZero) :
    s.engine.KeepsZero spared (after (process s)).engine := by
  have hkept : Yields (fun _ => (s.start.zeroKept spared).Final)
      (s.start.zeroKept spared).Failed (execute s.start) := by
    have hlaws : (s.start.zeroKept spared).Laws := zeroKept_laws (s := s.start) harch
    refine hlaws.steps.execute (fun {s' _} h => ?_)
      ⟨⟨rfl, rfl, .refl _, hgrounded⟩, hoperands, rfl, rfl, fun _ => rfl⟩
      fun s₁ hresolve => zeroKept_opens (s := s.start) harch hspares hresolve
    exact ⟨h.holds.value, h.holds.cell, h.holds.taint⟩
  have haccounting := execute_accounting id False.elim hoperands hgrounded
  rw [run_process, run_bind]
  revert hkept haccounting
  cases execute s.start with
  | error e s' => exact fun hfailed _ => hfailed.failed
  | ok fault s' =>
    intro hfinal haccounting
    have hsame : s.engine.KeepsZero spared s'.engine := hfinal.final
    have haccounts : s.start.Accounts s' := haccounting.final
    obtain ⟨s₁, hrun, hsettles⟩ := run_settle (haccounts.listed haccounting.grounded) fault
    show s.engine.KeepsZero spared (after (settle fault s')).engine
    rw [hrun]
    have hengine : s₁.engine = { s'.engine with symbolic := s₁.symbolic } := hsettles.engine
    refine ⟨?_, (hsettles.symbolic.kept _ fun x hx hbinds => ?_).trans hsame.cell, ?_⟩
    · show s₁.machine.root _ = _
      rw [hengine]
      exact hsame.value
    -- what the instruction lists was made after the binding of the root
    · have hbound := hbinds.1
      rw [hsame.cell] at hbound
      obtain ⟨cell, hcell, hid⟩ := Option.map_eq_some_iff.1 hbound
      obtain ⟨id, hid', rfl⟩ := Option.map_eq_some_iff.1 hcell
      obtain ⟨y, hy, -⟩ := hgrounded.registers _ _ hid'
      have hlt : id < s.symbolic.expressions.size := (getElem?_eq_some_iff.1 hy).1
      have hmem := hx.1.1
      rw [Array.mem_def, haccounts.list, List.mem_range'_1] at hmem
      have hold : s.symbolic.expressions.size ≤ x.id := hmem.1
      have heq : id = x.id := hid
      omega
    · show spared → s₁.taint.isPlace _ = _
      rw [hengine]
      exact hsame.taint

end

end Frame

/-! Copies of zero. -/

/-- Zero, as the value of a register, is zero as the value of its root. -/
theorem AArch64.merge_zero {dst : Register} (hdst : aarch64.Has dst) (symbolic : Symbolic)
    (machine : Machine) (rules : Rules) (v : Valuation) :
    ∃ g, Build.Answers rules (symbolic.mergeRegister .aarch64 machine dst (.constant 0 dst.bits))
      (.ok g) ∧ g.width = dst.parentBits ∧ g.eval v = 0 := by
  have hmerge : dst.isRoot = true ∨ dst.merge = .zeroExtend := by
    have hall : ∀ reg ∈ aarch64.registers, reg.isRoot = true ∨ reg.merge = .zeroExtend := by
      decide +kernel
    exact hall dst hdst.mem_registers
  have hfits : v.Fits fun _ => none := fun _ _ h => by cases h
  let V := View.single hfits
  have hzero : V.Gives (.constant 0 dst.bits) dst.bits 0 :=
    ⟨⟨hdst.wordWidth, Word.modulus_pos _⟩, rfl, rfl, fun _ => rfl, fun _ => trivial⟩
  have hforms : V.Forms rules (symbolic.mergeRegister .aarch64 machine dst
      (.constant 0 dst.bits)) dst.parentBits 0 := by
    unfold Symbolic.mergeRegister
    rw [if_neg (by simp [Formula.width])]
    split
    · next hself =>
      rw [← (hdst.whole hself).2]
      exact .pure hzero
    · next hpart =>
      rw [hmerge.resolve_left hpart]
      exact View.Forms.zeroExtend hzero ((Nat.le_add_left _ _).trans hdst.bound)
        (hdst.parentBits_le.trans (by decide))
  obtain ⟨g, hg, hgives⟩ := hforms.answers trivial
  exact ⟨g, hg, hgives.width_eq, hgives.eval_eq rfl⟩

/-- The instruction copies a zero register to a register of its width, which is neither the
program counter nor a zero register. -/
structure Instruction.CopiesZero (dst : Register) (inst : Instruction) : Prop where
  operation : operation? inst.opcode = some .mov
  operands : ∃ src, inst.operands = [.register dst, .register src] ∧ src.Known ∧
    aarch64.isZeroRegister src = true ∧ src.bits = dst.bits
  has : aarch64.Has dst
  counter : aarch64.isProgramCounter dst = false
  zero : aarch64.isZeroRegister dst = false

/-- A zero register that is read is zero. -/
theorem AArch64.run_readMove_zero {s : Frame} {dst src : Register} (harch : s.arch = .aarch64)
    (hoperands : s.instruction.operands = [.register dst, .register src])
    (hsrc : aarch64.isZeroRegister src = true) (hbits : src.bits = dst.bits)
    (hdst : aarch64.Has dst) :
    ∃ pool, readMove s =
      .ok (.register dst, .register src, .constant 0 dst.bits) (s.withPool pool) := by
  obtain ⟨pool, hbuild⟩ := run_build (s := s) (.constant (hbits ▸ hdst.wordWidth) 0)
  refine ⟨pool, ?_⟩
  have hread : readSized (.register src) dst.bits s =
      .ok (.constant 0 dst.bits) (s.withPool pool) := by
    have hsized : readSized (.register src) dst.bits s = readRegister src s := by
      unfold readSized
      simp only [Operand.bits, hbits, ne_eq, not_true_eq_false, if_false]
      rfl
    rw [hsized, run_readRegister, harch, if_pos hsrc, ← hbits]
    exact hbuild
  rw [readMove, run_bind, run_operand, hoperands]
  simp only [List.getElem?_cons_zero, run_bind, run_operand, hoperands, List.getElem?_cons_succ,
    Operand.bits, hread]
  rfl

/-- A copy of a zero register is zero, and has the taint of the zero registers. -/
theorem Engine.process_copy_zero {e : Engine} (harch : e.arch = .aarch64) {inst : Instruction}
    {dst : Register} (hcopies : inst.CopiesZero dst) :
    ∃ s, process ⟨e, inst⟩ = .ok none s ∧ s.machine.register dst = 0 ∧
      s.taint.isRegister dst = e.taint.isPlace (.root xzr) := by
  obtain ⟨src, hoperands, hknown, hzero, hbits⟩ := hcopies.operands
  obtain ⟨root, hroot, hisRoot, hrootBits⟩ := hcopies.has.root
  obtain ⟨pool, hread⟩ := run_readMove_zero (s := Frame.start ⟨e, inst⟩) harch hoperands hzero hbits
    hcopies.has
  obtain ⟨merged, hmerged, hwidth, hvalue⟩ := merge_zero hcopies.has e.symbolic e.machine
    e.modes.rules e.valuation
  obtain ⟨b, pool', s₁, s₂, s₃, hassign, hs₁, hlike, hset, htaint⟩ := run_assign_register
    (s := (Frame.start ⟨e, inst⟩).withPool pool) (harch ▸ hcopies.zero) (harch ▸ hroot) hisRoot (harch ▸ hmerged) (hwidth.trans hrootBits.symm)
    "MOV operation" (taints_assignTaint (.register dst) (.register src))
  have hmov : mov (Frame.start ⟨e, inst⟩) = .ok () s₃ := by
    rw [mov, run_bind, hread]
    show (Step.assign _ _ _ _ >>= fun _ => pure ()) _ = _
    rw [run_bind, hassign]
    rfl
  have hkeeps := (((Frame.Keeps.withPool _ pool).trans (.withPool _ pool')).trans hs₁.keeps).trans
    (.of_like hlike)
  have hfixed : ∀ op ∈ inst.operands, ∀ access, op = .memory access →
      access.isComputed = false := by
    intro op hop access haccess
    have hmem : op ∈ [Operand.register dst, .register src] := hoperands ▸ hop
    subst haccess
    simp at hmem
  have hsemantics : e.arch.semantics? inst.opcode = some (complete mov) := by
    rw [harch, semantics?_aarch64, hcopies.operation]
    rfl
  obtain ⟨s, hprocess, hregister, hcounter⟩ := run_process_complete hsemantics hfixed hmov hkeeps
  have hsrc : src.id = xzr ∨ src.id = wzr := by simpa [isZeroRegister] using hzero
  have hother : e.arch.isProgramCounter dst = false := harch ▸ hcopies.counter
  refine ⟨s, hprocess, ?_, ?_⟩
  · have hmachine : s₃.machine = e.machine.setRegister root 0 := by
      rw [hlike.engine.machine, hs₁.engine, ← hvalue, ← Formula.value_eq_eval]
      rfl
    rw [hregister dst hother, hmachine,
      Machine.register_eq_slice hcopies.has hroot hisRoot hrootBits,
      Machine.register_setRegister hisRoot ((has_of_register? hroot).whole hisRoot).1
        (Word.modulus_pos _), Word.slice, Nat.zero_shiftRight, Word.truncate, Nat.zero_mod]
  · cases hset
    rw [hcounter, Taint.isRegister_setRegister,
      if_neg (Ne.symm (beq_eq_false_iff_ne.1 hother)), htaint]
    show (s₁.taint.setRegister dst (s₁.taint.isRegister src)).isRegister dst = _
    rw [Taint.isRegister_setRegister, if_pos rfl, hs₁.engine]
    show e.taint.isPlace (.root src.parent) = _
    rw [hknown.parent_eq_xzr.2 hsrc]

section

variable {modes : Modes} {e : Engine} {given : List Formula}
  (hturns : Engine.Turns False { arch := .aarch64, modes } [] e given)

include hturns

theorem Engine.Turns.aarch64 : e.arch = .aarch64 :=
  (hturns.kept (.start False .aarch64 modes)).2.arch

theorem Engine.Turns.keeps_zero {spared : Prop} (insts : List Instruction)
    (hknown : ∀ inst ∈ insts, ∀ op ∈ inst.operands, op.Known)
    (hspares : spared → ∀ inst ∈ insts, inst.SparesZero) :
    (insts.foldl processed e).arch = .aarch64 ∧ e.KeepsZero spared (insts.foldl processed e) := by
  induction insts generalizing e given with
  | nil => exact ⟨hturns.aarch64, rfl, rfl, fun _ => rfl⟩
  | cons inst insts ih =>
    have hnext := hturns.next (.performed (.act (.process inst)) (hknown inst (by simp)))
    have hsame : e.KeepsZero spared (e.processed inst) :=
      Frame.process_keeps_zero (s := ⟨e, inst⟩) hturns.aarch64 (hknown inst (by simp))
        (hturns.kept (.start False .aarch64 modes)).1.grounded fun h => hspares h inst (by simp)
    obtain ⟨harch, hrest⟩ := ih hnext (fun other hother => hknown other (by simp [hother]))
      fun h other hother => hspares h other (by simp [hother])
    exact ⟨harch, hsame.trans hrest⟩

/-- Instructions that write to the zero register leave its value and its binding, and a copy of
it after them is zero. Its taint, which the copy takes over, stays if none of them writes to
it. -/
theorem zero_register_keeps_value (insts : List Instruction)
    (hknown : ∀ inst ∈ insts, ∀ op ∈ inst.operands, op.Known) :
    (insts.foldl Engine.processed e).machine.root xzr = e.machine.root xzr ∧
    (insts.foldl Engine.processed e).symbolic.registers[xzr]? = e.symbolic.registers[xzr]? ∧
    ((∀ inst ∈ insts, inst.SparesZero) →
      (insts.foldl Engine.processed e).taint.isPlace (.root xzr) = e.taint.isPlace (.root xzr)) ∧
    ∀ inst dst, inst.CopiesZero dst → ∃ s,
      Step.process ⟨insts.foldl Engine.processed e, inst⟩ = .ok none s ∧
      s.machine.register dst = 0 ∧ s.taint.isRegister dst =
        (insts.foldl Engine.processed e).taint.isPlace (.root xzr) := by
  obtain ⟨harch, hkept⟩ := hturns.keeps_zero insts hknown id
  refine ⟨hkept.value, ?_, hkept.taint, fun inst dst hcopies => process_copy_zero harch hcopies⟩
  have hcell : ((insts.foldl Engine.processed e).symbolic.registers[xzr]?).map
      (Cell.mk · 0) = (e.symbolic.registers[xzr]?).map (Cell.mk · 0) := hkept.cell
  exact Option.map_injective (fun a b hab => congrArg Cell.expression hab) hcell

end

def AArch64.zeroRegister : Register := aarch64.numbered xzr

def AArch64.linkRegister : Register := aarch64.numbered x30

def discardedSum : Instruction :=
  .decoded 0x400000 4 1 [.register zeroRegister, .register linkRegister,
    .register linkRegister] ""

def clearStack : Instruction :=
  .decoded 0x400004 4 27 [.register aarch64.stackPointer,
    .register zeroRegister] ""

theorem AArch64.zeroRegister_known : zeroRegister.Known := ⟨_, numbered_has _⟩

theorem discardedSum_known : ∀ op ∈ discardedSum.operands, op.Known := by
  have hlink : linkRegister.Known := ⟨_, numbered_has _⟩
  have hoperands : discardedSum.operands = [.register zeroRegister,
    .register linkRegister, .register linkRegister] := rfl
  rw [hoperands]
  simp only [List.mem_cons, List.not_mem_nil, or_false, forall_eq_or_imp, forall_eq]
  exact ⟨zeroRegister_known, hlink, hlink⟩

theorem clearStack_copies : clearStack.CopiesZero aarch64.stackPointer where
  operation := by decide +kernel
  operands := ⟨zeroRegister, rfl, zeroRegister_known, by decide +kernel, by decide +kernel⟩
  has := aarch64.stackPointer_has
  counter := by decide +kernel
  zero := by decide +kernel

/-- A sum is discarded, zero stays zero, and the stack pointer is cleared with it. -/
theorem zero_register_keeps_value_sum :
    (Engine.processed (.new .aarch64) discardedSum).machine.root xzr = 0 ∧
    ∃ s, Step.process ⟨Engine.processed (.new .aarch64) discardedSum,
        clearStack⟩ = .ok none s ∧
      s.machine.register aarch64.stackPointer = 0 := by
  obtain ⟨hvalue, -, -, hcopy⟩ := zero_register_keeps_value
    (.none : Engine.Turns False (.new .aarch64) [] _ _) [discardedSum]
    fun inst hinst => by
      obtain rfl := List.mem_singleton.1 hinst
      exact discardedSum_known
  obtain ⟨s, hrun, hzero, -⟩ := hcopy clearStack _ clearStack_copies
  exact ⟨hvalue, s, hrun, hzero⟩

/-- A tainted sum taints the zero register, and a copy of zero after it is tainted. -/
theorem zero_register_keeps_taint :
    (∃ given, Engine.Turns False (.new .aarch64) [] (taintedRoots .aarch64 [x30]) given) ∧
    (∀ op ∈ discardedSum.operands, op.Known) ∧
    (taintedRoots .aarch64 [x30]).taint.isPlace (.root xzr) = false ∧
    ((taintedRoots .aarch64 [x30]).processed discardedSum).taint.isPlace (.root xzr) = true ∧
    ∃ s', Step.process
        ⟨(taintedRoots .aarch64 [x30]).processed discardedSum, clearStack⟩ = .ok none s' ∧
      s'.taint.isRegister aarch64.stackPointer = true := by
  refine ⟨⟨_, Engine.Turns.none.next (.performed (.act (.retaint fun _ =>
    (true, { registers := .ofList [x30] }))) trivial)⟩, discardedSum_known,
    by decide +kernel, by decide +kernel, ?_⟩
  exact Step.exists_frame (by decide +kernel)

end Concolic
