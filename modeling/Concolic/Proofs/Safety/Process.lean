import Concolic.Proofs.Checked
import Concolic.Proofs.Reachable
import Concolic.Proofs.Safety.Steps

/-
  No instruction fails with a fatal error, in any engine that is reached.

  Whatever is done with an engine, its formulas stay well formed
  (`Action.run_wellFormed`): this needs no condition on the instructions processed or on
  the places symbolized, since a request that makes no sense fails before it leaves a
  formula behind. In such an engine an instruction whose operands are sized, with the few
  further conditions of `Instruction.Admissible`, ends with an answer or with an error
  that is no fatal one (`processing_never_overflows`), and the numbers computed on the way
  stay within the integers of the machine.
-/

namespace Concolic

open Formula (WordWidth)
open Step Engine Architecture Concolic.Action Symbolic Instruction X86 Exec

variable {arch : Architecture} {e : Engine} {scope : Scope} {inst : Instruction} {op : Operand}
  {s : Symbolic}

namespace Premises

variable {P : Premises} {scope : Scope}

/-! The operands are resolved. -/

theorem Safe.computedAddress (h : P.sure → op.Worded) : P.Passes scope (computedAddress op) := by
  cases op with
  | immediate imm => exact .pure trivial
  | register reg => exact .pure trivial
  | memory access =>
    refine .ite (fun _ => .ite (fun _ => refuse fun _ => by decide) fun _ => ?_)
      fun _ => .pure trivial
    exact (effectiveAddress h).bind fun _ _ => (evaluate _).bind fun _ _ => .pure trivial

/-- The address of an operand does not matter. -/
def Movable (P : Premises) : Prop :=
  ∀ ops i address, P.takes ops → P.takes (ops.modify i (Operand.placed address))

theorem Safe.resolveOperands (hmove : P.Movable) : P.Passes scope resolveOperands := by
  refine operandCount.bind fun count _ => .forM _ fun i _ => ?_
  refine (operand i).bind fun op hop => (computedAddress hop).bind fun address _ => ?_
  cases address with
  | none => exact .pure trivial
  | some address => exact fun s hs => ⟨⟨hs.engine, hmove _ i address hs.operands⟩, trivial⟩

/-! The operation runs, and the modes drop what they do not keep. -/

theorem Safe.expressions : P.Passes scope expressions := by
  refine get fun s _ => instruction.bind fun inst _ => ?_
  have hfound : ∀ id, P.Passes scope (MonadExcept.ofExcept (s.symbolic.expression id)) :=
    fun id => ofExcept (fun _ _ => trivial) fun _ => expression_error
  exact done (composes.mapM _ fun id _ => hfound id)

theorem Safe.drop (x : Expression) : P.Passes scope (drop x) :=
  modifySymbolic
    (fun _ _ hs hrun => hs.fewer (fewer_unbind hrun) (.inl (array_unbind hrun)))
    fun _ _ => unbind_error

theorem Safe.settle (fault : Option Fault) : P.Passes scope (settle fault) := by
  have hprune : P.Passes scope prune := by
    refine get fun s _ => expressions.bind fun all _ => ?_
    exact (forM _ fun x _ => drop x).seq (modifyInstruction fun _ => ⟨rfl, rfl⟩)
  refine bind (modifyInstruction ?_) fun _ _ => hprune.bind fun _ _ => ?_
  · exact fun _ => ⟨rfl, rfl⟩
  refine expressions.bind fun all _ => bind (modifyInstruction ?_) fun _ _ => .pure trivial
  exact fun _ => ⟨rfl, rfl⟩

theorem Holds.process {s : Frame} (h : P.Holds scope s) (hmove : P.Movable)
    (hfit : P.sure → ∀ ops, ((P.pinned ops).alone scope).Fits scope s.instruction.opcode) :
    Harmless P.sure (fun _ => P.Later scope) (P.Later scope) (process s) := by
  have hstart : P.Holds scope s.start := h.of_instruction rfl
  have hexecute : Harmless P.sure (fun _ => P.Later scope) (P.Later scope) (execute s.start) := by
    rw [run_execute, hstart.engine.arch_eq]
    cases haction : P.arch.semantics? s.start.instruction.opcode with
    | none => exact hstart.later
    | some act =>
      exact (Safe.resolveOperands hmove).first (fun _ _ => action haction hfit) _ hstart
  refine hexecute.bind (fun fault s' hs' => ?_) fun _ he => he
  obtain ⟨later, hle, hs'⟩ := hs'
  exact ((Safe.settle fault).ends s' hs').mono (fun _ _ hend => hend.trans hle)
    fun _ hend => hend.trans hle

/-! Symbolization. -/

theorem symbolizeRegister_harmless (reg : Register) :
    P.Ends scope (exec (symbolizeRegister reg)) := by
  intro s hs
  have hrun : exec (symbolizeRegister reg) s = exec
      (build (Build.newVariable reg.bits (some reg.name) (s.machine.register reg)) >>=
        fun f => mergeRegister reg f >>= fun merged => get >>= fun e =>
          ofExcept (e.arch.register reg.parent) >>= fun parent =>
            create merged (.register parent) "Register symbolization" none) s := rfl
  rw [hrun, exec_seq]
  refine Ends.newVariable _ _ _ (fun later hle f hf => ?_) s hs
  rw [exec_seq]
  refine (Safe.mergeRegister reg hf).first fun merged hmerged => ?_
  have hbound : P.Safe later (exec (get >>= fun e : Engine =>
      ofExcept (e.arch.register reg.parent) >>= fun parent =>
        create merged (.register parent) "Register symbolization" none))
      fun _ => True := by
    refine Safe.getEngine fun e he => ?_
    rw [exec_seq]
    exact (Safe.lookUp fun _ => register_error).bind fun parent _ =>
      Safe.create hmerged _ _ _
  exact hbound.ends

theorem symbolizeMemory_harmless (access : Access) :
    P.Ends scope (exec (symbolizeMemory access)) := by
  intro s hs
  have hrun : exec (symbolizeMemory access) s = exec
      (build (Build.newVariable access.bits none (s.machine.accessValue access)) >>=
        fun f => create f (.memory access) "Memory symbolization" none >>= fun id =>
          if s.modes.isOn .memoryArray then
            build (Build.constant access.address.toNat s.arch.addressWidth) >>=
              fun index => arrayStore index f >>= fun _ => pure id
          else pure id) s := rfl
  rw [hrun, exec_seq]
  refine Ends.newVariable _ _ _ (fun later hle f hf => ?_) s hs
  rw [exec_seq]
  refine (Safe.create hf _ _ _).first fun id _ => ?_
  split
  · rw [exec_seq]
    refine (Safe.build fun _ => .word fun _ => s.arch.addressWidth_range).first
      fun index hindex => ?_
    rw [exec_seq]
    exact (Safe.arrayStore hindex hf).first fun _ _ => .pure id
  · exact .pure id

end Premises

/-! Engines that are reached. -/

theorem Premises.holds_unsure (h : e.WellFormed arch scope) (inst : Instruction) :
    (unsure arch).Holds scope ⟨e, inst⟩ := ⟨h, trivial⟩

namespace Engine.WellFormed

variable {arch : Architecture} {scope : Scope} {e : Engine}

/-- The engine holds well-formed formulas in a scope that may have grown. -/
def After (arch : Architecture) (scope : Scope) (e : Engine) : Prop :=
  ∃ later : Scope, later.Extends scope ∧ e.WellFormed arch later

theorem after (h : e.WellFormed arch scope) : After arch scope e := ⟨scope, .refl _, h⟩

theorem exec (h : e.WellFormed arch scope) {α : Type} {x : Exec α}
    (hx : (Premises.unsure arch).Ends scope (exec x)) : After arch scope (Exec.after (x e)) := by
  have hend := hx ⟨e, { address := 0, length := 0, opcode := 0, next := 0 }⟩
    (Premises.holds_unsure h _)
  unfold Step.exec at hend
  revert hend
  cases x e with
  | ok a e' =>
    rintro ⟨later, hle, hs⟩
    exact ⟨later, hle, hs.engine⟩
  | error error e' =>
    rintro ⟨⟨later, hle, hs⟩, -⟩
    exact ⟨later, hle, hs.engine⟩

theorem fewer (h : e.WellFormed arch scope) (hs : e.symbolic.Fewer s)
    (ha : s.array = e.symbolic.array ∨ s.array = none) :
    ({ e with symbolic := s } : Engine).WellFormed arch scope :=
  ⟨h.arch_eq, h.context, h.symbolic.fewer hs ha⟩

theorem concretizeBytes (places : List Address) (h : s.WellFormed scope) :
    (places.foldl concretizeByte s).WellFormed scope := by
  induction places generalizing s with
  | nil => exact h
  | cons place places ih => exact ih (h.fewer (s.fewer_concretizeByte place) (.inl rfl))

theorem process (h : e.WellFormed arch scope) (inst : Instruction) :
    After arch scope (Step.after (process ⟨e, inst⟩)).engine := by
  have hend := (Premises.holds_unsure h inst).process (fun _ _ _ h => h) False.elim
  revert hend
  cases Step.process ⟨e, inst⟩ with
  | ok fault s =>
    rintro ⟨later, hle, hs⟩
    exact ⟨later, hle, hs.engine⟩
  | error error s =>
    rintro ⟨⟨later, hle, hs⟩, -⟩
    exact ⟨later, hle, hs.engine⟩

end Engine.WellFormed

namespace Action

open Engine.WellFormed (After)

variable {arch : Architecture} {scope : Scope} {e : Engine}

/-- Whatever is done leaves well-formed formulas. -/
theorem apply_wellFormed (h : e.WellFormed arch scope) (action : Action) :
    After arch scope (action.apply e) := by
  cases action with
  | process inst => exact h.process inst
  | setRegister reg value =>
    exact WellFormed.after ⟨h.arch_eq, h.context,
      h.symbolic.fewer (e.symbolic.fewer_concretizeRegister reg) (.inl rfl)⟩
  | setMemory address bytes =>
    exact WellFormed.after ⟨h.arch_eq, h.context, WellFormed.concretizeBytes _ h.symbolic⟩
  | symbolizeRegister reg => exact h.exec (Premises.symbolizeRegister_harmless reg)
  | symbolizeMemory access => exact h.exec (Premises.symbolizeMemory_harmless access)
  | concretizeRegister reg =>
    exact (h.fewer (e.symbolic.fewer_concretizeRegister reg) (.inl rfl)).after
  | concretizeByte address =>
    exact (h.fewer (e.symbolic.fewer_concretizeByte address) (.inl rfl)).after
  | concretizeAccess access =>
    exact (h.fewer (e.symbolic.fewer_concretizeAccess access) (.inl rfl)).after
  | concretizeRegisters => exact (h.fewer e.symbolic.fewer_concretizeRegisters (.inl rfl)).after
  | concretizeMemory => exact (h.fewer e.symbolic.fewer_concretizeMemory (.inr rfl)).after
  | concretizeAll => exact (h.fewer e.symbolic.fewer_concretizeAll (.inr rfl)).after
  | retaint change => exact WellFormed.after ⟨h.arch_eq, h.context, h.symbolic⟩
  | setMode mode enabled => exact WellFormed.after ⟨h.arch_eq, h.context, h.symbolic⟩

theorem run_wellFormed (h : e.WellFormed arch scope) (actions : List Action) :
    After arch scope (run e actions) := by
  induction actions generalizing e scope with
  | nil => exact h.after
  | cons action actions ih =>
    obtain ⟨later, hle, hnext⟩ := apply_wellFormed h action
    obtain ⟨last, hlast, hend⟩ := ih hnext
    exact ⟨last, hle.trans hlast, hend⟩

end Action

/-- A new engine holds the formulas of its context only. -/
theorem Engine.wellFormed_new {ctx : Context} {given : List Formula}
    (session : Session ctx given) (arch : Architecture) (modes : Modes) :
    ({ arch, modes, context := ctx } : Engine).WellFormed arch ctx.scope := by
  refine ⟨rfl, ⟨rfl, session.wellFormed.1, session.pool_wellFormed⟩, fun i x hx => ?_,
    fun f hf => ?_⟩
  · simp at hx
  · cases hf

/-! What is computed with an engine. -/

/-- The formulas at hand: those of the pool, those recorded, the memory array, and every
lawful operator over them, such as one whose constant operands are folded. -/
inductive Engine.AtHand (e : Engine) : Formula → Prop where
  | pooled {f : Formula} (has : e.pool.Has f) : AtHand e f
  | recorded {i : Nat} {x : Expression} (found : e.symbolic.expressions[i]? = some x) :
      AtHand e x.formula
  | array {f : Formula} (kept : e.symbolic.array = some f) : AtHand e f
  | operator {f : Formula} (lawful : f.Lawful) (nonempty : f.children ≠ [])
      (operands : ∀ g ∈ f.children, AtHand e g) : AtHand e f

theorem Engine.WellFormed.atHand (h : e.WellFormed arch scope) {f : Formula} (hf : e.AtHand f) :
    f.WellFormed scope := by
  induction hf with
  | pooled has => exact h.context.pool _ has
  | recorded found => exact h.symbolic.expressions _ _ found
  | array kept => exact h.symbolic.array _ kept
  | operator lawful nonempty _ ih => exact .of_operands lawful nonempty ih

/-- Whatever is computed with the engine stays within the integers of the machine: the
values of formulas, also such as are folded, and the parts of registers; and the fixed
registers exist. -/
structure Engine.Computes (e : Engine) : Prop where
  present : e.valuation.Fits e.scope
  formulas : ∀ f v, e.AtHand f → v.Fits e.scope → f.checked v = some (f.eval v)
  registers : ∀ reg : Register, reg.Known → ∀ root value,
    reg.checkedRead root = some (reg.read root) ∧
      reg.checkedWrite root value = some (reg.write root value)
  programCounter : e.arch.register? e.arch.programCounterId = some e.arch.programCounter
  stackPointer : e.arch.register? e.arch.stackPointerId = some e.arch.stackPointer

theorem Engine.WellFormed.computes (h : e.WellFormed arch scope) : e.Computes where
  present := h.context.bounded.fits _
  formulas f v hf hv := by
    rw [h.context.scope_eq] at hv
    exact (h.atHand hf).checked_eq hv
  registers reg hreg root value := by
    obtain ⟨arch, harch⟩ := hreg
    exact ⟨Register.checkedRead_eq harch root, Register.checkedWrite_eq harch root value⟩
  programCounter := (Option.some_get _).symm
  stackPointer := (Option.some_get _).symm

/-! Instructions that may be processed. -/

/-- The operands are sized; a shift or a rotation has no flag as its destination, a return
drops less than `2 ^ 62` bytes, and the shift of MOVZ is below the greatest width. -/
structure Instruction.Admissible (arch : Architecture) (inst : Instruction) : Prop where
  sized : ∀ op ∈ inst.operands, op.Sized arch
  shift : arch.isX86 = true → ∀ kind, X86.operation? inst.opcode = some (.shift kind) →
    ∀ reg, inst.operands[0]? = some (.register reg) → reg.bits ≠ 1
  rotate : arch.isX86 = true → ∀ left, X86.operation? inst.opcode = some (.rotate left) →
    ∀ reg, inst.operands[0]? = some (.register reg) → reg.bits ≠ 1
  ret : arch.isX86 = true → X86.operation? inst.opcode = some .ret →
    ∀ imm, inst.operands[0]? = some (.immediate imm) → imm.value.toNat < 2 ^ 62
  movz : arch = .aarch64 → AArch64.operation? inst.opcode = some .movz →
    ∀ imm, inst.operands[2]? = some (.immediate imm) → imm.value.toNat < Word.limit

/-- The size of an operand does not rest on its address. -/
theorem Operand.Sized.of_unplaced {given : Operand} (h : given.Sized arch)
    (hsame : op.unplaced = given.unplaced) : op.Sized arch := by
  have hunplaced : ∀ op : Operand, op.unplaced.Sized arch ↔ op.Sized arch := by
    intro op
    cases op <;> exact Iff.rfl
  rw [← hunplaced, hsame, hunplaced]
  exact h

namespace Instruction

/-- But for its address, the operand is the one that the instruction has there. -/
def Takes (inst : Instruction) (i : Nat) (op : Operand) : Prop :=
  ∃ given, inst.operands[i]? = some given ∧ op.unplaced = given.unplaced

theorem Takes.given {i : Nat} (h : inst.Takes i op) (hop : op.unplaced = op)
    (hmem : ∀ access, op ≠ .memory access) : inst.operands[i]? = some op := by
  obtain ⟨given, hgiven, hsame⟩ := h
  rw [hgiven, ← hop, hsame]
  cases given with
  | memory access => exact absurd (hop.symm.trans hsame) (hmem _)
  | _ => rfl

def premises {arch : Architecture} {inst : Instruction} (h : inst.Admissible arch) : Premises where
  arch := arch
  sure := True
  takes ops := ∀ (i : Nat) op, ops[i]? = some op → inst.Takes i op
  sized _ ops hops op hop := by
    obtain ⟨i, hi⟩ := List.mem_iff_getElem?.1 hop
    obtain ⟨given, hgiven, hsame⟩ := hops i op hi
    exact (h.sized given (List.mem_of_getElem? hgiven)).of_unplaced hsame

theorem premises_movable (h : inst.Admissible arch) : (premises h).Movable := by
  intro ops i address hops j op hop
  rw [List.getElem?_modify] at hop
  obtain ⟨old, hold, rfl⟩ := Option.map_eq_some_iff.1 hop
  obtain ⟨given, hgiven, hsame⟩ := hops j old hold
  refine ⟨given, hgiven, trans ?_ hsame⟩
  split
  · cases old <;> rfl
  · rfl

theorem Admissible.fits (h : inst.Admissible arch) (scope : Scope) (ops : List Operand) :
    (((premises h).pinned ops).alone scope).Fits scope inst.opcode where
  noFlag harch op hop hshifts := by
    rintro s t dst ⟨rfl, -, hs⟩ hdst reg rfl
    have hgiven := (hs.operands.2 0 _ hdst).given rfl (by simp)
    cases op with
    | shift kind => exact h.shift harch kind hop reg hgiven
    | rotate left => exact h.rotate harch left hop reg hgiven
    | _ => cases hshifts
  ret harch hop := by
    rintro s t src ⟨rfl, -, hs⟩ hsrc imm rfl
    exact h.ret harch hop imm ((hs.operands.2 0 _ hsrc).given rfl (by simp))
  movz harch hop := by
    rintro s t src ⟨rfl, -, hs⟩ hsrc imm rfl
    exact h.movz harch hop imm ((hs.operands.2 2 _ hsrc).given rfl (by simp))

end Instruction

/-- An admissible instruction, in an engine reached by any actions in any modes, ends with
an answer or with an error that is no fatal one, and nothing computed on the way leaves
the integers of the machine. -/
theorem processing_never_overflows {context : Context} {given : List Formula}
    (session : Session context given) (arch : Architecture) (modes : Modes) (actions : List Action)
    {inst : Instruction} (h : inst.Admissible arch) :
    (∀ error, Step.answer (Step.process ⟨Action.run { arch, modes, context } actions, inst⟩) =
        .error error → error.isFatal = false) ∧
      (Step.after
        (Step.process ⟨Action.run { arch, modes, context } actions, inst⟩)).engine.Computes ∧
      ∀ imm width, .immediate imm ∈ inst.operands →
        imm.checkedSized width = some (imm.sized width) := by
  obtain ⟨scope, -, he⟩ := Action.run_wellFormed (wellFormed_new session arch modes) actions
  have hholds : (Instruction.premises h).Holds scope
      ⟨Action.run { arch, modes, context } actions, inst⟩ := ⟨he, fun i op hop => ⟨op, hop, rfl⟩⟩
  have hend := hholds.process (Instruction.premises_movable h) fun _ ops => h.fits scope ops
  refine ⟨?_, ?_, fun imm width himm => Immediate.checkedSized_eq (h.sized _ himm) width⟩
  · intro error herror
    revert hend herror
    cases Step.process ⟨Action.run { arch, modes, context } actions, inst⟩ with
    | ok fault s => exact fun _ herror => by cases herror
    | error e s =>
      intro hend herror
      cases herror
      exact hend.2 trivial
  · revert hend
    cases Step.process ⟨Action.run { arch, modes, context } actions, inst⟩ with
    | ok fault s =>
      rintro ⟨later, -, hs⟩
      exact hs.engine.computes
    | error e s =>
      rintro ⟨⟨later, -, hs⟩, -⟩
      exact hs.engine.computes

-- a flag as the destination of a shift is what the conditions exclude
example : (x86_64.register? X86.cf).map (fun flag => answer (Step.process
    ⟨.new .x86_64,
      .decoded 0x1000 3 92 [.register flag, .immediate (.ofValue 1 8)] "shl cf, 1"⟩)) =
    some (.error (.invalidWidth (.difference 1 2))) := by decide +kernel

/-- A word on the stack is shifted by more than its width. -/
def shiftStack : Instruction :=
  .decoded 0x1000 4 92 [.memory ((Access.fixed 0 16).withBase x86_64.stackPointer),
    .immediate (.ofValue 200 8)] "shl word ptr [rsp], 200"

theorem shiftStack_admissible : shiftStack.Admissible .x86_64 := by
  have hop : operation? shiftStack.opcode = some (.shift .left) := by decide +kernel
  refine ⟨decoded_two ⟨by decide, fun reg hreg => ?_, fun reg hreg => ?_⟩
    (by decide : WordWidth 8), fun _ _ _ reg hreg => ?_, fun _ left hrotate => ?_,
    fun _ hret => ?_, fun harch => ?_⟩
  · cases hreg
    exact ⟨.x86_64, x86_64.stackPointer_has⟩
  · cases hreg
  · cases hreg
  · rw [hop] at hrotate
    cases hrotate
  · rw [hop] at hret
    cases hret
  · cases harch

/-- The shift, at an address that is symbolic, where memory is one array. -/
theorem processing_never_overflows_shiftStack :
    shiftStack.Admissible .x86_64 ∧
      (∀ error, Step.answer (Step.process ⟨Action.run (.new .x86_64)
          [.setMode .memoryArray true, .symbolizeRegister Architecture.x86_64.stackPointer],
          shiftStack⟩) = .error error → error.isFatal = false) ∧
      (Step.after (Step.process ⟨Action.run (.new .x86_64)
          [.setMode .memoryArray true, .symbolizeRegister Architecture.x86_64.stackPointer],
          shiftStack⟩)).engine.Computes ∧
      ∀ imm width, .immediate imm ∈ shiftStack.operands →
        imm.checkedSized width = some (imm.sized width) :=
  ⟨shiftStack_admissible,
    processing_never_overflows .start .x86_64 .initial _ shiftStack_admissible⟩

end Concolic
