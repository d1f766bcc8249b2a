import Concolic.Proofs.Lockstep.Run
import Concolic.Proofs.Lockstep.Twin

/-
  Twins process whole instructions alike.

  The addresses of the memory operands are computed from values, so the two runs
  are compared from the point where these are resolved, to the same addresses.
  From there the simulation of twins leads through the instruction.
-/

namespace Concolic

open Step Concolic.Frame X86

variable {s t : Frame} {inst : Instruction} {sized : Prop}

namespace Twin

open Simulation

variable {sized : Prop} {s₀ t₀ : Frame} {w : Frame × Frame}

/-- The engines are still those of the world, and the operands may have been
resolved. -/
structure Resolving (sized : Prop) (s₀ t₀ : Frame) (w : Frame × Frame) (s t : Frame) : Prop where
  left : w.1.engine.Like s.engine
  right : w.2.engine.Like t.engine
  paired : Paired sized s₀ t₀ s t

theorem Resolving.of_frames (h : (twin sized s₀ t₀).frames w s t) :
    Resolving sized s₀ t₀ w s t := ⟨h.1.engine, h.2.1.engine, h.2.2⟩

theorem Resolving.frames (h : Resolving sized s₀ t₀ w s t) :
    (twin sized s₀ t₀).frames (s, t) s t := ⟨⟨.refl _, rfl⟩, ⟨.refl _, rfl⟩, h.paired⟩

theorem setAddress {i : Nat} {a b : Address} (hst : (twin sized s₀ t₀).frames w s t)
    (h : (after (setAddress i a s)).instruction.operands[i]? =
      (after (setAddress i b t)).instruction.operands[i]?) :
    Step.Outcomes (fun _ => Ended sized s₀ t₀) (fun _ _ => Resolving sized s₀ t₀ w)
      (setAddress i a s) (setAddress i b t) := by
  have hpaired := hst.2.2
  have hcode := hpaired.code
  refine ⟨hst.1.engine, hst.2.1.engine, {
    __ := hpaired
    code := ⟨hcode.archLeft, hcode.archRight, hcode.address, hcode.length, hcode.opcode, ?_, ?_⟩ }⟩
  · apply List.ext_getElem?
    intro j
    by_cases hj : i = j
    · subst hj
      exact h
    · show (List.modify _ i _)[j]? = (List.modify _ i _)[j]?
      rw [List.getElem?_modify_ne _ _ hj, List.getElem?_modify_ne _ _ hj, hcode.operands]
  · refine Operand.forall_mem_modify hcode.sources (fun op hop => ?_) i
    cases op with
    | memory access => exact ⟨hop.base, hop.index, hop.size⟩
    | register reg => exact hop
    | immediate imm => exact hop

theorem resolveOperand {i : Nat} (hst : (twin sized s₀ t₀).frames w s t)
    (h : (after (resolveOperand i s)).instruction.operands[i]? =
      (after (resolveOperand i t)).instruction.operands[i]?) :
    Step.Outcomes (fun _ => Ended sized s₀ t₀) (fun _ _ => Resolving sized s₀ t₀ w)
      (resolveOperand i s) (resolveOperand i t) := by
  have hread : (twin sized s₀ t₀).Reads w (operand i >>= computedAddress)
      (operand i >>= computedAddress) fun a b => a.isSome = b.isSome := by
    refine (laws.operand i).bind fun op op' hop => ?_
    obtain rfl := hop.eq
    exact laws.computedAddress hop.source
  rw [run_resolveOperand, run_resolveOperand] at h ⊢
  revert h
  rcases (hread s t hst).cases with ⟨e, s', t', hs, ht, hout⟩ | ⟨a, b, s', t', hs, ht, hst', hab⟩
  · rw [hs, ht]
    exact fun _ => ⟨rfl, hout⟩
  · rw [hs, ht]
    cases a <;> cases b <;> simp only [Option.isSome_none, Option.isSome_some,
      reduceCtorEq] at hab
    · exact fun _ => .of_frames hst'
    · exact setAddress hst'

theorem resolve : ∀ {l : List Nat} {w : Frame × Frame} {s t : Frame}, l.Nodup →
    (twin sized s₀ t₀).frames w s t →
    (∀ i ∈ l, (after (l.forM Step.resolveOperand s)).instruction.operands[i]? =
      (after (l.forM Step.resolveOperand t)).instruction.operands[i]?) →
    Step.Outcomes (fun _ => Ended sized s₀ t₀) (fun _ _ => Resolving sized s₀ t₀ w)
      (l.forM Step.resolveOperand s) (l.forM Step.resolveOperand t)
  | [], w, s, t, _, hst, _ => .of_frames hst
  | i :: l, w, s, t, hl, hst, h => by
    have hrun : ∀ s, (i :: l).forM Step.resolveOperand s =
        (Step.resolveOperand i >>= fun _ => l.forM Step.resolveOperand) s := fun s => rfl
    obtain ⟨hi, hl⟩ := List.nodup_cons.1 hl
    -- the rest leaves the operand that comes first
    have hfirst : ∀ s, (after ((i :: l).forM Step.resolveOperand
        s)).instruction.operands[i]? =
          (after (Step.resolveOperand i s)).instruction.operands[i]? := by
      intro s
      rw [hrun, run_bind]
      cases hs : Step.resolveOperand i s with
      | error e s' => rfl
      | ok _ s' => exact retains_iff.1 (operands_resolve hi) s'
    have hout := resolveOperand hst (by rw [← hfirst, ← hfirst]; exact h i (by simp))
    revert h
    simp only [hrun, run_bind]
    rcases hout.cases with ⟨e, s', t', hs, ht, hout⟩ | ⟨_, _, s', t', hs, ht, hout⟩
    · simp only [hs, ht]
      exact fun _ => ⟨rfl, hout⟩
    · have hnext : ∀ s t, Resolving sized s₀ t₀ (s', t') s t → Resolving sized s₀ t₀ w s t :=
        fun s t h => ⟨hout.left.trans h.left, hout.right.trans h.right, h.paired⟩
      simp only [hs, ht]
      intro h
      exact (resolve hl hout.frames fun j hj => h j (by simp [hj])).imp fun _ _ => hnext

end Twin

/-! The values that an instruction decides by. -/

/-- The count that a rotation is by: the bits that are used of its second operand,
or one. -/
def Frame.maskedCount (s : Frame) : Except Error Nat :=
  answer ((do
    let dst ← operand 0
    let (count, _) ← shiftCount dst.bits
    evaluate count : Step Nat) s)

theorem Frame.maskedCount_eq {s s' : Frame} {dst : Operand} {p : Formula × Bool}
    (hdst : s.instruction.operands[0]? = some dst) (hcount : shiftCount dst.bits s = .ok p s') :
    s.maskedCount = .ok (s'.evaluate p.1) := by
  have hoperand : operand 0 s = .ok dst s := by
    have hlook : operand? 0 s = .ok (some dst) s := congrArg (EStateM.Result.ok · s) hdst
    unfold operand
    rw [run_bind, hlook]
    rfl
  unfold maskedCount
  rw [run_bind, hoperand]
  simp only [run_bind, hcount]
  rfl

namespace Twin

open Simulation

variable {sized : Prop} {s₀ t₀ : Frame} {w : Frame × Frame}

theorem stackPointer (h : w.1.machine.register s₀.arch.stackPointer =
      w.2.machine.register s₀.arch.stackPointer) :
    (twin sized s₀ t₀).Reads w (readRegister s₀.arch.stackPointer)
      (readRegister s₀.arch.stackPointer) ((twin sized s₀ t₀).knows w false) := by
  have hhas := s₀.arch.stackPointer_has
  generalize hsp : s₀.arch.stackPointer = sp at h hhas
  have hplain : s₀.arch.isZeroRegister sp = false ∧
      s₀.arch.isProgramCounter sp = false := by
    rw [← hsp]
    cases s₀.arch <;> decide +kernel
  have hread : ∀ s : Frame, s.arch = s₀.arch → readRegister sp s =
      exec (Exec.build (s.symbolic.registerFormula s.machine sp)) s := by
    intro s hs
    rw [run_readRegister, hs, hplain.1, hplain.2]
    rfl
  refine reads_build fun s t hst => ?_
  have htwins := hst.2.2.twins
  have harch := hst.2.2.code.archLeft
  have hs : s.arch.Has sp := harch ▸ hhas
  refine ⟨_, hread s harch, ?_, ?_⟩
  · rw [hread t hst.2.2.code.archRight, htwins.registerFormula_eq hs]
  · obtain ⟨f, hf, hgives, hgives'⟩ := htwins.registerFormula hs s.modes.rules
    have hover : f.OverVariables w.1.scope := scope_eq hst ▸ hgives.overVariables
    refine .of_answers hf ⟨rfl, hover, fun _ => ⟨scope_right hst ▸ hover, ?_⟩⟩
    rw [← evaluate_left hst hover, ← evaluate_right hst hover, evaluate_self hst hover,
      evaluate_self' hst hover, hgives.value_eq, hgives'.value_eq, hst.1.engine.machine,
      hst.2.1.engine.machine, h]

/-- Where a rotation is by one count in both runs, or by its formula, the count
corresponds. -/
theorem rotationCount (hst : (twin sized s₀ t₀).frames (s, t) s t)
    (h : s.modes.isOn .symbolizeIndexRotation = false → s.maskedCount = t.maskedCount) :
    SameCount (twin sized s₀ t₀) (s, t) := by
  intro s' t' dst hst' hdst
  have hleft : s.instruction.operands[0]? = some dst := hst'.1.instruction ▸ hdst
  have hright : t.instruction.operands[0]? = some dst := hst.2.2.code.operands ▸ hleft
  have hcount : (twin sized s₀ t₀).Reads (s, t) (shiftCount dst.bits)
      (shiftCount dst.bits) ((twin sized s₀ t₀).Tagged (s, t)) :=
    (shiftCount_lockstep laws False.elim fun _ _ _ _ _ => trivial).mono fun _ _ h => h.1
  -- each of the frames like `s` finds the formula that `s` does, and so for `t`
  have hvalue : (twin sized s₀ t₀).Reads (s, t) (shiftCount dst.bits)
      (shiftCount dst.bits) fun p p' => (twin sized s₀ t₀).Tagged (s, t) p p' ∧
        s.maskedCount = .ok (s.context.evaluate p.1) ∧
        t.maskedCount = .ok (t.context.evaluate p'.1) := by
    intro s₁ t₁ h₁
    have hout := hcount s₁ t₁ h₁
    have hout₁ := hcount s t₁ (exchangeable _ _ _ _ hst h₁)
    have hout₂ := hcount s₁ t (exchangeable _ _ _ _ h₁ hst)
    cases hs₁ : shiftCount dst.bits s₁ <;> cases ht₁ : shiftCount dst.bits t₁ <;>
      cases hs : shiftCount dst.bits s <;> cases ht : shiftCount dst.bits t <;>
      simp only [hs₁, ht₁, hs, ht, Step.Outcomes] at hout hout₁ hout₂ ⊢
    · next p s₂ p' t₂ q s₃ q' t₃ =>
      obtain ⟨hframes, hpp⟩ := hout
      obtain ⟨hframes₁, -, ⟨hq, hqover, -⟩, -⟩ := hout₁
      obtain ⟨hframes₂, -, ⟨hq', hqover', -⟩, -⟩ := hout₂
      have hformula : p.1 = p'.1 := hpp.choose_spec.1.1
      refine ⟨hframes, hpp, ?_, ?_⟩
      · rw [maskedCount_eq hleft hs, evaluate_left hframes₁ hqover, hq, hformula]
      · rw [hq'] at hqover'
        rw [maskedCount_eq hright ht, evaluate_right hframes₂ hqover', ← hq', hformula]
    · exact hout
  refine hvalue.bind fun p p' hp => ?_
  obtain ⟨htagged, hps, hpt⟩ := hp
  have ⟨_, ⟨hformula, hover, _⟩, _⟩ := htagged
  have hmode : (twin sized s₀ t₀).Reads (s, t) (isOn .symbolizeIndexRotation)
      (isOn .symbolizeIndexRotation) fun on on' =>
        on = on' ∧ s.modes.isOn .symbolizeIndexRotation = on := by
    refine .look fun s₁ t₁ h₁ => ⟨?_, ?_⟩
    · rw [h₁.2.2.twins.modes]
    · rw [h₁.1.engine.modes]
  refine hmode.bind fun on on' hon => ?_
  obtain ⟨rfl, hon⟩ := hon
  cases on with
  | true => exact .pure ⟨htagged, False.elim⟩
  | false =>
    have hsame : s.context.evaluate p.1 = t.context.evaluate p'.1 :=
      Except.ok.inj (hps.symm.trans ((h hon).trans hpt))
    have heval : (twin sized s₀ t₀).Reads (s, t) (evaluate p.1) (evaluate p'.1) (· = ·) := by
      refine .look fun s₁ t₁ h₁ => ?_
      rw [evaluate_left h₁ hover, evaluate_right h₁ (hformula ▸ hover)]
      exact hsame
    refine heval.bind fun n n' hn => ?_
    subst hn
    exact Reads.bind (laws.constant n dst.bits False.elim) fun c c' hc =>
      .pure ⟨⟨false, hc.1, trivial⟩, False.elim⟩

end Twin

/-- The x86 operation that the frame is at. -/
def Frame.At (s : Frame) (op : Op) : Prop :=
  s.arch.isX86 = true ∧ operation? s.instruction.opcode = some op

/-- The instruction of the frames takes the same way as far as it is decided by values:
the addresses of its operands, the stack pointer, and the count of a rotation. -/
structure Frame.SameWay (s t : Frame) : Prop where
  addresses : s.arch.isSupported s.instruction.opcode = true →
    s.resolved.instruction.operands = t.resolved.instruction.operands
  stack : ∀ op, s.At op → op.usesStack = true →
    s.machine.register s.arch.stackPointer = t.machine.register s.arch.stackPointer
  count : ∀ op, s.At op → op.rotates = true →
    s.modes.isOn .symbolizeIndexRotation = false →
    s.resolved.maskedCount = t.resolved.maskedCount

namespace Twin

open Simulation

variable {sized : Prop} {s₀ t₀ : Frame}

theorem resolveOperands (hst : (twin sized s₀ t₀).frames (s, t) s t)
    (h : s.resolved.instruction.operands = t.resolved.instruction.operands) :
    Step.Outcomes (fun _ => Ended sized s₀ t₀) (fun _ _ => Resolving sized s₀ t₀ (s, t))
      (resolveOperands s) (resolveOperands t) := by
  have hrun : ∀ s : Frame, Step.resolveOperands s =
      (List.range s.instruction.operands.length).forM Step.resolveOperand s := fun s => rfl
  unfold resolved at h
  rw [hrun, hrun, ← hst.2.2.code.operands] at h ⊢
  exact resolve List.nodup_range hst fun i _ => by rw [h]

theorem action {s t s₁ t₁ : Frame} {action : Step (Option Fault)}
    (hresolving : Resolving sized s₀ t₀ (s, t) s₁ t₁) (harch : s.arch = s₀.arch)
    (haction : s.arch.semantics? s.instruction.opcode = some action)
    (hs : s.resolved = s₁) (ht : t.resolved = t₁) (hway : s.SameWay t) :
    (twin sized s₀ t₀).Meets (s₁, t₁) action action := by
  obtain ⟨op, hx86, hop, rfl⟩ | ⟨op, -, -, rfl⟩ := semantics?_cases haction
  · have hx : s₀.arch.isX86 = true := harch ▸ hx86
    refine Op.execute_meets laws (.of_flat laws covers flat (fun _ => trivial) id
      (fun _ _ _ _ _ _ => trivial) (fun husesStack => ?_) (fun hrotates => ?_) fun _ => False.elim) covers hx
      exchangeable
    · refine stackOpen (stackPointer ?_)
      have hstack := hway.stack op ⟨hx86, hop⟩ husesStack
      rw [harch] at hstack
      rw [hresolving.left.machine, hresolving.right.machine]
      exact hstack
    · refine rotationCount hresolving.frames fun hmode => ?_
      rw [← hs, ← ht]
      exact hway.count op ⟨hx86, hop⟩ hrotates (hresolving.left.modes ▸ hmode)
  · exact (AArch64.Op.execute_ends laws covers
      (.of_flat laws flat (fun _ => trivial) (fun i _ => .of_source laws id i) False.elim)).meets

/-- An instruction that takes the same way in twins with one result leaves twins. -/
theorem execute (hst : (twin sized s₀ t₀).frames (s, t) s t) (hway : s.SameWay t)
    (h : answer (execute s) = answer (execute t)) :
    Ended sized s₀ t₀ (after (execute s)) (after (execute t)) := by
  have hcode := hst.2.2.code
  rw [run_execute, run_execute, ← hcode.opcode, hcode.archRight, ← hcode.archLeft] at h ⊢
  revert h
  cases haction : s.arch.semantics? s.instruction.opcode with
  | none => exact fun _ => hst.2.2.ended
  | some action =>
    have hsupported : s.arch.isSupported s.instruction.opcode = true := by
      rw [Architecture.isSupported, haction]
      rfl
    have hout := resolveOperands hst (hway.addresses hsupported)
    simp only [run_bind]
    rcases hout.cases with ⟨e, s₁, t₁, hs, ht, hout⟩ | ⟨_, _, s₁, t₁, hs, ht, hout⟩
    · rw [hs, ht]
      exact fun _ => hout
    · rw [hs, ht]
      have hmeets := Twin.action hout hcode.archLeft haction (congrArg after hs)
        (congrArg after ht) hway s₁ t₁ hout.frames
      exact fun h => (hmeets h).after fun _ _ _ _ he => he

end Twin

theorem Engine.Twins.start {e e' : Engine} (h : e.Twins sized e')
    (hsuits : ∀ op ∈ inst.operands, op.Suits e.arch sized) :
    (twin sized (start ⟨e, inst⟩) (start ⟨e', inst⟩)).frames
      (start ⟨e, inst⟩, start ⟨e', inst⟩)
      (start ⟨e, inst⟩) (start ⟨e', inst⟩) := by
  refine ⟨⟨.refl _, rfl⟩, ⟨.refl _, rfl⟩, {
    twins := h
    code := ⟨rfl, h.arch.symm, rfl, rfl, rfl, rfl, hsuits⟩
    text := rfl
    place := rfl
    leftListed := ?_
    rightListed := ?_
    modes := rfl
    left := .refl _
    right := .refl _
    leftPath := rfl
    rightPath := rfl }⟩
  · intro id hid
    cases Array.not_mem_empty id hid
  · intro id hid
    cases Array.not_mem_empty id hid

/-- A run is a twin of itself. -/
theorem Engine.Agrees.executed {e : Engine} (h : e.Agrees sized)
    (hsuits : ∀ op ∈ inst.operands, op.Suits e.arch sized) :
    Ended sized (start ⟨e, inst⟩) (start ⟨e, inst⟩)
      (after (execute (start ⟨e, inst⟩)))
      (after (execute (start ⟨e, inst⟩))) :=
  Twin.execute (h.twins.start hsuits) ⟨fun _ => rfl, fun _ _ _ => rfl, fun _ _ _ _ => rfl⟩ rfl

end Concolic
