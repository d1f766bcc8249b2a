import Concolic.Proofs.Lockstep.Abreast
import Concolic.Proofs.Lockstep.X86.Semantics

/-
  The parts of an instruction that depend on the modes, run abreast.

  Two runs under different modes may differ in the expressions that they make: for
  the registers that an instruction leaves undefined, for the count of a rotation,
  and for the path. A register that only one of them binds to a fresh variable keeps
  its value there, a count that only one of them takes at its present value has that
  value, and a decision that only one of them records could not have gone another
  way.
-/

namespace Concolic

open Step Architecture Context Comparison

variable {f g : Formula} {id : Nat} {reg : Register} {modes : Modes}

/-- The frame after changes that give no place another value. -/
structure Frame.Unmoved (k : Comparison) (modes : Modes) (s s' : Frame) : Prop where
  keeps : s.Keeps s'
  sound : s'.engine.Sound k modes
  registers : ∀ reg, reg.Known → s'.machine.register reg = s.machine.register reg
  bytes : ∀ address, s'.machine.byte address = s.machine.byte address

namespace Frame.Unmoved

variable {k : Comparison} {modes : Modes} {a b c s : Frame}

theorem refl (h : s.engine.Sound k modes) : s.Unmoved k modes s :=
  ⟨.refl s, h, fun _ _ => rfl, fun _ => rfl⟩

theorem trans (h₁ : a.Unmoved k modes b) (h₂ : b.Unmoved k modes c) : a.Unmoved k modes c where
  keeps := h₁.keeps.trans h₂.keeps
  sound := h₂.sound
  registers reg hreg := (h₂.registers reg hreg).trans (h₁.registers reg hreg)
  bytes address := (h₂.bytes address).trans (h₁.bytes address)

theorem gives (h : a.Unmoved k modes b) (hreg : reg.Known)
    (hf : a.engine.context.Gives f reg.bits (a.engine.machine.register reg)) :
    b.engine.context.Gives f reg.bits (b.engine.machine.register reg) := by
  rw [h.registers reg hreg]
  exact hf.later h.keeps.later

section

variable (h : s.engine.Sound k modes)

include h

theorem build {α : Type} {x : Build α} {r : α} (hx : Build.Answers s.modes.rules x (.ok r)) :
    ∃ s', exec (Exec.build x) s = .ok r s' ∧ s.Unmoved k modes s' := by
  obtain ⟨pool, hrun⟩ := run_build hx
  exact ⟨_, hrun, .withPool s pool, h.weaken (s.engine.like_withPool pool).weakens,
    fun _ _ => rfl, fun _ => rfl⟩

theorem readRegister (hreg : k.arch.Has reg) (hzero : k.arch.isZeroRegister reg = false)
    (hcounter : k.arch.isProgramCounter reg = false) :
    ∃ f s', readRegister reg s = .ok f s' ∧ s.Unmoved k modes s' ∧
      s'.context.Gives f reg.bits (s'.machine.register reg) := by
  rw [run_readRegister, h.arch, if_neg (Bool.eq_false_iff.1 hzero), if_neg (Bool.eq_false_iff.1 hcounter)]
  obtain ⟨f, hf, hgives⟩ := h.agrees.registerFormula (h.arch ▸ hreg) s.modes.rules
  obtain ⟨s', hrun, hs'⟩ := build h hf
  exact ⟨f, s', hrun, hs', hs'.gives ⟨_, hreg⟩ hgives⟩

theorem unknownValue (hreg : k.arch.Has reg) :
    ∃ f s', unknownValue reg s = .ok f s' ∧ s.Unmoved k modes s' ∧
      s'.context.Gives f reg.bits (s'.machine.register reg) := by
  have hw := (source_of_has hreg).wordWidth
  obtain ⟨pool, hrun⟩ := run_unknownValue hw s
  refine ⟨_, _, hrun, ⟨s.keeps_addVariable ..,
    h.weaken (s.engine.weakens_addVariable hw _ _ pool), fun _ _ => rfl, fun _ => rfl⟩, ?_⟩
  exact s.context.gives_addVariable hw (s.machine.register_lt reg) _ pool

theorem setRoot (hreg : k.arch.Has reg) (hroot : reg.isRoot = true)
    (hzero : k.arch.isZeroRegister reg = false)
    (hf : s.context.Gives f reg.bits (s.machine.register reg)) (comment : String)
    (b : Bool) : ∃ s', writeRegister reg.id f comment b s = .ok () s' ∧ s.Unmoved k modes s' := by
  obtain ⟨s', hrun, hkeeps, hweakens, -⟩ := run_setRoot (s := s) (h.arch ▸ hreg) hroot
    (h.arch ▸ hzero) hf.width_eq comment b
  have hsound := h.writeRegister hreg hroot (x := s.newExpression f (.register reg) comment)
    hf.overVariables hf.width_eq
  rw [Engine.evaluate_eq hf.overVariables] at hweakens
  refine ⟨s', hrun, hkeeps, hsound.weaken hweakens, fun other hother => ?_, fun address => ?_⟩
  · rw [hweakens.machine, hf.value_eq]
    exact Machine.register_restore hreg hroot hother _
  · rw [hweakens.machine]
    rfl

end

end Frame.Unmoved

namespace Abreast

open Simulation

variable {k : Comparison} {w : Frame × Frame} {l : Bool} {s t s' t' : Frame}

theorem flat (hk : k.tracked = false) : (abreast k).Flat :=
  fun hb => ⟨hb.1, fun htracked => Bool.noConfusion (hk.symm.trans htracked)⟩

/-! Undefined registers. -/

/-- Where only the concrete execution is compared, changes that give no place another
value leave the frames abreast. -/
theorem of_unmoved (hk : k.exact = false ∧ k.tainted = false ∧ k.tracked = false)
    (hst : (abreast k).frames w s t) (hs : s.Unmoved k k.left s') (ht : t.Unmoved k k.right t') :
    ∃ w', (abreast k).le w w' ∧ (abreast k).frames w' s' t' ∧ True := by
  obtain ⟨hexact, htainted, htracked⟩ := hk
  have h := hst.2.2.2
  have hshown : ∀ {taint : Taint} {place : Place}, ¬ k.Hides taint place := fun hh =>
    Bool.noConfusion (htracked.symm.trans hh.1)
  have hengines : s'.engine.Abreast k (k.Hides s'.taint) t'.engine := by
    refine .of_machine hexact hs.sound ht.sound (fun site hsite _ => ?_)
      fun hk => Bool.noConfusion (htainted.symm.trans hk)
    have hread := h.engines.read_eq site hsite hshown
    cases site with
    | register reg =>
      exact (hs.registers reg hsite.1.known).trans (hread.trans (ht.registers reg hsite.1.known).symm)
    | byte address =>
      simp only [Machine.readAt, hs.bytes, ht.bytes]
      exact hread
  exact world_next hst hs.keeps ht.keeps (h.next hs.keeps ht.keeps hengines
    fun hk => Bool.noConfusion (hexact.symm.trans hk)) trivial

theorem run_ifUndefined (x : Step Unit) (s : Frame) : ifUndefined x s =
    if s.modes.isOn .concretizeUndefinedRegisters then x s else .ok () s := by
  show (if s.modes.isOn .concretizeUndefinedRegisters = true then x else pure ()) s = _
  split <;> rfl

theorem register_of_has (h : s.engine.Sound k modes) (hreg : k.arch.register? id = some reg) :
    register id s = .ok reg s := by
  rw [run_register, h.arch, Architecture.register, hreg]

theorem unmoved_forget (h : s.engine.Sound k modes) (hid : (abreast k).HasRoot id) :
    ∃ s', forget id s = .ok () s' ∧ s.Unmoved k modes s' := by
  obtain ⟨reg, hreg, hroot, hzero, -⟩ := hid
  have hhas := has_of_register? hreg
  obtain ⟨f, s₁, hrun₁, hs₁, hf⟩ := Frame.Unmoved.unknownValue h hhas
  obtain ⟨s₂, hrun₂, hs₂⟩ := Frame.Unmoved.setRoot hs₁.sound hhas hroot hzero hf "Undefined" false
  refine ⟨s₂, ?_, hs₁.trans hs₂⟩
  unfold forget
  simp only [run_bind, register_of_has h hreg, hrun₁]
  rw [← register?_id hreg]
  exact hrun₂

/-- Where modes differ on undefined registers, no more than the concrete execution is
compared. -/
theorem concrete_of_undefined
    (h : k.left.isOn .concretizeUndefinedRegisters ≠ k.right.isOn .concretizeUndefinedRegisters) :
    k.exact = false ∧ k.tainted = false ∧ k.tracked = false := by
  have htainted : k.tainted = false := Bool.eq_false_iff.2 fun hk => h (k.undefined hk)
  refine ⟨Bool.eq_false_iff.2 fun hk => ?_, htainted, Bool.eq_false_iff.2 fun hk => ?_⟩
  · exact Bool.noConfusion (htainted.symm.trans (k.exactly hk))
  · exact Bool.noConfusion (htainted.symm.trans (k.tracks hk).2.1)

theorem unknownValue (hreg : k.arch.Has reg) (hk : k.tracked = false) :
    (abreast k).Writes w (unknownValue reg) (unknownValue reg)
      fun w' => (abreast k).knows w' true := by
  have hw := (source_of_has hreg).wordWidth
  intro s t hst
  have h := hst.2.2.2
  have hvalue : s.machine.register reg = t.machine.register reg :=
    h.engines.read_eq (.register reg) ⟨source_of_has hreg,
      fun ht => Bool.noConfusion (hk.symm.trans ht)⟩
      fun hh => Bool.noConfusion (hk.symm.trans hh.1)
  obtain ⟨pool, hs⟩ := run_unknownValue hw s
  obtain ⟨pool', ht⟩ := run_unknownValue hw t
  rw [← hvalue] at ht
  rw [hs, ht]
  generalize hn : s.machine.register reg = value at hs ht
  have hlt : value < Word.modulus reg.bits := hn ▸ s.machine.register_lt reg
  have hkeeps := s.keeps_addVariable reg.bits (some "undefined") value pool
  have hkeeps' := t.keeps_addVariable reg.bits (some "undefined") value pool'
  obtain ⟨hengines, hknows⟩ := h.engines.addVariable hw hlt (some "undefined") pool pool'
  exact world_next hst hkeeps hkeeps' (h.next hkeeps hkeeps' hengines h.lists) (hknows true)

/-- Where a part is done as the modes say, it is done in both runs or gives no place
another value. -/
theorem ifUndefined {x y : Step Unit}
    (hboth : k.tracked = false → (abreast k).Writes w x y (abreast k).nothing)
    (hleft : ∀ s t, (abreast k).frames w s t → ∃ s', x s = .ok () s' ∧ s.Unmoved k k.left s')
    (hright : ∀ s t, (abreast k).frames w s t → ∃ t', y t = .ok () t' ∧ t.Unmoved k k.right t') :
    (abreast k).Writes w (ifUndefined x) (ifUndefined y) (abreast k).nothing := by
  intro s t hst
  have hengines := hst.2.2.2.engines
  rw [run_ifUndefined, run_ifUndefined, hengines.left.modes, hengines.right.modes]
  cases hon : k.left.isOn .concretizeUndefinedRegisters <;>
    cases hon' : k.right.isOn .concretizeUndefinedRegisters
  · exact ⟨w, words.refl w, hst, trivial⟩
  · obtain ⟨t', hrun, ht⟩ := hright s t hst
    rw [if_pos rfl, hrun]
    exact of_unmoved (concrete_of_undefined (by rw [hon, hon']; decide)) hst
      (.refl hengines.left) ht
  · obtain ⟨s', hrun, hs⟩ := hleft s t hst
    rw [if_pos rfl, hrun]
    exact of_unmoved (concrete_of_undefined (by rw [hon, hon']; decide)) hst
      hs (.refl hengines.right)
  · rw [if_pos rfl, if_pos rfl]
    refine hboth (Bool.eq_false_iff.2 fun htracked => ?_) s t hst
    exact Bool.noConfusion (hon.symm.trans (k.tracks htracked).2.2)

theorem undefine (hid : (abreast k).HasRoot id) :
    (abreast k).Writes w (undefine id) (undefine id) (abreast k).nothing :=
  ifUndefined (fun hk => laws.forget (unknownValue · hk) hid (flat hk laws.taint_false))
    (fun _ _ hst => unmoved_forget hst.2.2.2.engines.left hid)
    fun _ _ hst => unmoved_forget hst.2.2.2.engines.right hid

theorem unmoved_forgetUnless {keep : Formula} (h : s.engine.Sound k modes)
    (hid : (abreast k).HasRoot id) (hkeep : keep.OverVariables s.scope)
    (hbit : keep.width = 1) :
    ∃ s', forgetUnless keep id s = .ok () s' ∧ s.Unmoved k modes s' := by
  obtain ⟨reg, hreg, hroot, hzero, hcounter⟩ := hid
  have hhas : k.arch.Has reg := has_of_register? hreg
  obtain ⟨old, s₁, hrun₁, hs₁, hold⟩ := Frame.Unmoved.readRegister h hhas hzero hcounter
  obtain ⟨fresh, s₂, hrun₂, hs₂, hfresh⟩ := Frame.Unmoved.unknownValue hs₁.sound hhas
  -- the register has the value of what is chosen, whichever that is
  have hkeep₂ : keep.OverVariables s₂.scope :=
    ⟨hkeep.wellFormed.mono (hs₁.trans hs₂).keeps.later.scope, hkeep.memoryless⟩
  obtain ⟨f, hf, hchosen⟩ := answers_choice hs₂.sound.agrees.bounded
    s₂.modes.rules hkeep₂ hbit (hs₂.gives ⟨_, hhas⟩ hold) hfresh
  obtain ⟨s₃, hrun₃, hs₃⟩ := Frame.Unmoved.build hs₂.sound hf
  obtain ⟨s₄, hrun₄, hs₄⟩ := Frame.Unmoved.setRoot hs₃.sound hhas hroot hzero
    (hs₃.gives ⟨_, hhas⟩ hchosen) "Undefined"
    (decide (s₃.evaluate keep ≠ 0) && s₃.taint.isRegister reg)
  refine ⟨s₄, ?_, ((hs₁.trans hs₂).trans hs₃).trans hs₄⟩
  rw [register?_id hreg] at hrun₄
  have htainted : isRegisterTainted id s₃ = .ok (s₃.taint.isRegister reg) s₃ := by
    unfold isRegisterTainted
    rw [run_bind, register_of_has hs₃.sound hreg]
    rfl
  have heval : Step.evaluate keep s₃ = .ok (s₃.evaluate keep) s₃ := rfl
  have hchoose : (liftM (Build.ite keep old fresh) : Step Formula) s₂ = .ok f s₃ := hrun₃
  unfold forgetUnless
  simp only [run_bind, register_of_has h hreg, hrun₁, hrun₂, hchoose, heval, htainted]
  exact hrun₄

theorem undefineUnless (hid : (abreast k).HasRoot id) (hf : (abreast k).knows w l f g)
    (hbit : f.width = 1) :
    (abreast k).Writes w (undefineUnless f id) (undefineUnless g id) (abreast k).nothing := by
  refine ifUndefined (fun hk => ?_) (fun s t hst => ?_) fun s t hst => ?_
  · exact laws.forgetUnless (unknownValue · hk) hid hf (· = ·)
      (fun hf => laws.evaluated (lower hk hf)) fun hn hb =>
        ⟨fun hk => by rw [hn, hb.1 hk], fun htracked => Bool.noConfusion (hk.symm.trans htracked)⟩
  · have hknows := (knows_frames hst).1 hf
    exact unmoved_forgetUnless hst.2.2.2.engines.left hid hknows.left hbit
  · have hknows := (knows_frames hst).1 hf
    exact unmoved_forgetUnless hst.2.2.2.engines.right hid hknows.right (hknows.width_eq ▸ hbit)

/-! The stack and the count of a rotation. -/

/-- Where the stack pointer has one value in both runs, the stack can be used. -/
theorem stackOpen {op : X86.Op} (h : (abreast k).level w (.register k.arch.stackPointer) = false) :
    X86.StackOpen (abreast k) w op := by
  have hread := laws.readRegister (w := w)
    (laws.source_register (S := abreast k) k.arch.stackPointer_has)
  rw [h] at hread
  exact .of_pointer laws hread (fun _ _ _ => trivial) (fun _ => trivial)
    (fun _ _ _ _ => trivial) fun _ => False.elim

theorem evaluate_lt (hst : (abreast k).frames w s t) (hf : (abreast k).knows w l f g) :
    s.evaluate f < Word.modulus f.width := by
  have hknows := (knows_frames hst).1 hf
  rw [Engine.evaluate_eq hknows.left]
  exact (gives_evaluate hknows.left).lt hst.2.2.2.engines.left.agrees.bounded

/-- A formula corresponds to a constant of its present value where only the present
values are looked at. -/
theorem knows_value (hexact : k.exact = false) (hst : (abreast k).frames w s t)
    (hk : k.tracked = false) (hf : (abreast k).knows w l f g) :
    (abreast k).knows w l f (.constant (t.evaluate g) f.width) ∧
      (abreast k).knows w l (.constant (s.evaluate f) f.width) g := by
  have hknows := (knows_frames hst).1 hf
  have hvalue : s.evaluate f = t.evaluate g := evaluate hst (lower hk hf)
  have hrange := hknows.left.wellFormed.width_range
  have hlt := evaluate_lt hst hf
  have hconstant : ∀ {scope : Scope},
      (Formula.constant (s.evaluate f) f.width).OverVariables scope :=
    ⟨⟨hrange, hlt⟩, trivial⟩
  have hcurrent : ∀ {v v'}, k.views l s.context t.context v v' →
      f.eval v = s.evaluate f ∧ g.eval v' = t.evaluate g := by
    intro v v' hv
    rcases hv.2.2.2 with ⟨hv, hv'⟩ | ⟨hk, -⟩
    · rw [hv.eval hknows.left, hv'.eval hknows.right, Engine.evaluate_eq hknows.left,
        Engine.evaluate_eq hknows.right]
      exact ⟨rfl, rfl⟩
    · exact Bool.noConfusion (hexact.symm.trans hk)
  rw [knows_frames hst, knows_frames hst, ← hvalue]
  exact ⟨⟨hknows.left, hconstant, rfl, fun v v' hv => (hcurrent hv).1⟩,
    ⟨hconstant, hknows.right, hknows.width_eq, fun v v' hv => ((hcurrent hv).2.trans hvalue.symm).symm⟩⟩

/-- The count of a rotation: its formula, or a constant of its present value. -/
theorem rotationCount (hk : k.tracked = false) : X86.SameCount (abreast k) w := by
  intro _ _ dst _ _
  refine Reads.mono ?_ fun p p' (h : (abreast k).Tagged w p p') => ⟨h, False.elim⟩
  refine (X86.shiftCount_lockstep laws False.elim fun _ _ _ _ _ => trivial).bind fun p p' hp => ?_
  obtain ⟨⟨l, hknows, htaint⟩, hwidth⟩ := hp
  -- each run takes the formula or its value, as its modes say
  have hrun : ∀ (p : Formula × Bool) (s : Frame),
      (isOn .symbolizeIndexRotation >>= fun on => if on then pure p else do
        let value ← Step.evaluate p.1
        let count ← exec (Exec.build (Build.constant value dst.bits))
        return (count, p.2) : Step (Formula × Bool)) s =
      exec (Exec.build (if s.modes.isOn .symbolizeIndexRotation then pure p
        else Build.constant (s.evaluate p.1) dst.bits >>= fun c => pure (c, p.2))) s := by
    intro p s
    show (if s.modes.isOn .symbolizeIndexRotation = true then _ else _ :
      Step (Formula × Bool)) s = _
    split
    · rfl
    · rw [exec_bind]
      rfl
  refine reads_build fun s t hst => ⟨_, _, hrun p s, hrun p' t, ?_⟩
  have hengines := hst.2.2.2.engines
  have hrange := hknows.left.wellFormed.width_range
  have hvalue : s.evaluate p.1 = t.evaluate p'.1 := evaluate hst (lower hk hknows)
  have hlt := evaluate_lt hst hknows
  have hconstant : ∀ rules : Rules, Build.Answers rules
      (Build.constant (s.evaluate p.1) dst.bits)
      (.ok (.constant (s.evaluate p.1) p.1.width)) := by
    intro rules
    rw [← hwidth]
    nth_rewrite 2 [← Word.truncate_of_lt hlt]
    exact .constant hrange _
  rw [hengines.left.modes, hengines.right.modes, ← hvalue]
  have hexact : k.left.isOn .symbolizeIndexRotation ≠ k.right.isOn .symbolizeIndexRotation →
      k.exact = false := fun hne => Bool.eq_false_iff.2 fun hexact =>
    hne (k.shapes hexact _ (by decide))
  cases hon : k.left.isOn .symbolizeIndexRotation <;>
    cases hon' : k.right.isOn .symbolizeIndexRotation <;>
    simp only [Bool.false_eq_true]
  · refine .inl ⟨_, _, (hconstant _).bind (.pure _), (hconstant _).bind (.pure _), false, ?_, ?_⟩
    · exact .constant hrange hlt
    · exact flat hk htaint
  · refine .inl ⟨_, _, (hconstant _).bind (.pure _), .pure _, l, ?_, htaint⟩
    exact (knows_value (hexact (by rw [hon, hon']; decide)) hst hk hknows).2
  · refine .inl ⟨_, _, .pure _, (hconstant _).bind (.pure _), l, ?_, htaint⟩
    rw [hvalue]
    exact (knows_value (hexact (by rw [hon, hon']; decide)) hst hk hknows).1
  · exact .inl ⟨_, _, .pure _, .pure _, l, hknows, htaint⟩

/-! Where control goes. -/

theorem advanceTo (next : Address) :
    (abreast k).Ends w (setNext false false next) (setNext false false next) := by
  intro s t hst
  have h := hst.2.2.2
  exact ⟨⟨h.engines, h.leftListed, h.rightListed, h.lists, fun _ => ⟨rfl, rfl, rfl⟩⟩, rfl⟩

end Abreast

/-- The frame once control has arrived at the present value of `pc`: the instruction is
a branch, and the path holds where it held and `pc` has this value. -/
structure Frame.Arrives (pc : Formula) (conditional : Bool) (s s' : Frame) : Prop where
  engine : ∃ pool constraints, s'.engine = { s.engine.withPool pool with
    symbolic := { s.symbolic with constraints } }
  instruction : s'.instruction = { s.instruction with
    branch := true
    taken := !conditional || (s.evaluate pc).toUInt64 != s.instruction.fallThrough
    next := (s.evaluate pc).toUInt64 }
  conditions : s.engine.Conditions → s'.engine.Conditions
  holds : ∀ v : Valuation, v.Fits s.scope →
    (s'.engine.Holds v ↔ s.engine.Holds v ∧ pc.eval v = s.evaluate pc)

theorem Step.arrives {pc : Formula} {s : Frame} (hb : s.Bounded)
    (hpc : pc.OverVariables s.scope) (hwidth : pc.width ≤ 64) (conditional : Bool) :
    ∃ s', arrive pc conditional s = .ok () s' ∧ s.Arrives pc conditional s' := by
  have hvalue := Engine.evaluate_eq (e := s.engine) hpc
  have hlt : s.evaluate pc < Word.modulus pc.width := by
    rw [hvalue]
    exact (gives_evaluate hpc).lt hb
  have htarget := toNat_toUInt64 hwidth hlt
  obtain ⟨bs, hbs, houtcomes⟩ := answers_outcomes hpc s.modes.rules hwidth
    s.instruction.address (htarget ▸ hlt)
  obtain ⟨pool, hrun⟩ := run_arrival conditional hbs
  rw [hrun]
  split
  · next hskip =>
    -- the decision is not recorded, as it could not go another way
    have hconstant : pc.symbolic = false := by
      have hskip := ((Bool.and_eq_true _ _).mp hskip).2
      simpa using hskip
    refine ⟨_, rfl, ⟨s.pool, s.symbolic.constraints, rfl⟩, rfl, id,
      fun v _ => ⟨fun h => ⟨h, ?_⟩, fun h => h.1⟩⟩
    rw [hvalue, evaluate_eq_eval hpc fun _ => 0]
    exact Formula.eval_of_not_symbolic hpc.memoryless hconstant _ _
  · refine ⟨_, rfl, ⟨pool, _, rfl⟩, rfl, fun hconditions p hp b hb => ?_, fun v hv => ?_⟩
    · rcases Array.mem_push.1 hp with hp | rfl
      · exact hconditions p hp b hb
      · exact (houtcomes.decides b hb).1
    · have hnow : pc.eval (s.context.valuation fun _ => 0) = (s.evaluate pc).toUInt64.toNat := by
        rw [htarget, hvalue, evaluate_eq_eval hpc fun _ => 0]
      have hlast := houtcomes.holds_iff hnow hv
      rw [htarget] at hlast
      rw [← hlast]
      constructor
      · exact fun h => ⟨fun p hp => h p (Array.mem_push.2 (.inl hp)),
          h _ (Array.mem_push.2 (.inr rfl))⟩
      · rintro ⟨hbefore, hlast⟩ p hp
        rcases Array.mem_push.1 hp with hp | rfl
        · exact hbefore p hp
        · exact hlast

namespace Abreast

open Simulation

variable {k : Comparison} {w : Frame × Frame} {l : Bool} {s t s' t' : Frame}

theorem arrive (conditional : Bool) (hf : (abreast k).knows w l f g)
    (hwidth : f.width = k.arch.programCounter.bits) :
    (abreast k).Ends w (arrive f conditional) (arrive g conditional) := by
  intro s t hst
  obtain ⟨-, -, hcode, h⟩ := id hst
  have hengines := h.engines
  have hknows := (knows_frames hst).1 hf
  have hle : f.width ≤ 64 := by
    rw [hwidth]
    cases k.arch <;> decide
  obtain ⟨s', hs, hleft⟩ := arrives hengines.left.agrees.bounded hknows.left hle conditional
  obtain ⟨t', ht, hright⟩ := arrives hengines.right.agrees.bounded hknows.right
    (hknows.width_eq ▸ hle) conditional
  rw [hs, ht]
  have hsame : ∀ (e : Engine) (pool : Pool) (constraints : Array PathConstraint),
      e.SameBindings { e.withPool pool with symbolic := { e.symbolic with constraints } } :=
    fun e pool constraints => { Engine.Weakens.refl e with cells := fun _ => rfl }
  have hlisted : ∀ {s s' : Frame} {f : Formula}, s.Arrives f conditional s' → s.Listed →
      s'.Listed := by
    intro s s' f harrives hlisted id hid
    obtain ⟨pool, constraints, hengine⟩ := harrives.engine
    rw [harrives.instruction] at hid
    rw [hengine]
    exact hlisted id hid
  have hconditions := hleft.conditions
  have hconditions' := hright.conditions
  have hholds := hleft.holds
  have hholds' := hright.holds
  obtain ⟨pool, constraints, hengine⟩ := hleft.engine
  obtain ⟨pool', constraints', hengine'⟩ := hright.engine
  refine ⟨⟨?_, hlisted hleft h.leftListed, hlisted hright h.rightListed, fun hk => ?_,
    fun hk => ?_⟩, rfl⟩
  · rw [hengine] at hconditions hholds
    rw [hengine'] at hconditions' hholds'
    rw [hengine, hengine']
    refine hengines.rest (hsame _ pool constraints) (hsame _ pool' constraints') hengines.taint
      fun hk => ?_
    have hexact := hengines.exact hk
    refine ⟨hexact.vars, hexact.tags, hexact.cells, hconditions hexact.left,
      hconditions' hexact.right, fun v v' hv => ?_⟩
    -- the program counter has one value in both, under all values of the variables
    have htracked : k.tracked = false := Bool.eq_false_iff.2 fun htracked =>
      Bool.noConfusion ((k.tracks htracked).1.symm.trans hk)
    have hpc : f.eval v = g.eval v' := by
      refine hknows.eval_eq v v' ⟨fun ht => Bool.noConfusion (htracked.symm.trans ht), ?_⟩
      exact ⟨hv.1, hv.2.1, hv.2.2.imp id fun hvar => ⟨hk, hvar.2⟩⟩
    rw [hholds v hv.1, hholds' v' hv.2.1, hexact.path v v' hv, hpc,
      evaluate hst (lower htracked hf)]
  · rw [hleft.instruction, hright.instruction]
    exact h.lists hk
  · rw [hleft.instruction, hright.instruction]
    simp only [evaluate hst (lower hk hf), Instruction.fallThrough, hcode.address, hcode.length,
      and_self]

theorem covers : (abreast k).Covers where
  undefine := undefine
  undefineUnless _ := undefineUnless
  advanceTo := advanceTo
  arrive := arrive

end Abreast

end Concolic
