import Concolic.Proofs.Arithmetic
import Concolic.Proofs.Operations

/-
  Where control goes.

  An instruction that completes has written the program counter and says where control goes
  (`Frame.Steered`), in the width of the program counter and in that of addresses. The two
  are one number unless an instruction ends beyond the program counter's reach
  (`counter_wraps_and_address_does_not`). Within its reach a conditional branch is taken
  exactly if the value of what it tests says so and its target is not the next instruction
  (`Conditional.Decides`).
-/

namespace Concolic

open AArch64 Word Formula Architecture Engine

variable {b conditional : Bool} {f : Formula} {s s' : Frame}

/-! What a step leaves. -/

/-- Whatever the step starts from, `P` holds of its answer and of the frame that it leaves. -/
def Step.Leaves {α : Type} (x : Step α) (P : α → Frame → Prop) : Prop :=
  ∀ s a s', x s = .ok a s' → P a s'

theorem Step.Leaves.bind {α β : Type} {x : Step α} {k : α → Step β} {P : β → Frame → Prop}
    (h : ∀ a, Leaves (k a) P) : Leaves (x >>= k) P := by
  intro s b s' hrun
  obtain ⟨a, s₁, -, hrest⟩ := of_bind_eq_ok hrun
  exact h a s₁ b s' hrest

/-- The program counter points where the instruction says that control goes. Unless a branch
is taken, that is past the instruction. -/
def Frame.Steered (s : Frame) : Prop :=
  s.machine.register s.arch.programCounter =
      truncate s.arch.programCounter.bits s.instruction.next.toNat ∧
    (s.instruction.branch = false → s.instruction.taken = false) ∧
    (s.instruction.taken = false → s.instruction.next = s.instruction.fallThrough)

theorem Architecture.register_programCounter (arch : Architecture) (m : Machine) (value : Nat) :
    (m.setRegister arch.programCounter value).register arch.programCounter =
      truncate arch.programCounter.bits value :=
  Machine.register_setRegister_truncate arch.isRoot_programCounter (by cases arch <;> rfl) m value

namespace Step

theorem width_of_writeRegister {reg : Register} {comment : String} (hreg : s.arch.Has reg)
    (hzero : s.arch.isZeroRegister reg = false)
    (hrun : writeRegister reg.id f comment b s = .ok () s') : f.width = reg.bits := by
  by_contra hne
  obtain ⟨found, s₁, hfound, hassign⟩ := of_bind_eq_ok hrun
  rw [run_register, Architecture.register, show s.arch.register? reg.id = some reg from hreg]
    at hfound
  obtain ⟨rfl, rfl⟩ : reg = found ∧ s = s₁ := by
    cases hfound
    exact ⟨rfl, rfl⟩
  obtain ⟨_, s₂, hassign, -⟩ := of_bind_eq_ok hassign
  obtain ⟨_, s₃, hwrite, -⟩ := of_bind_eq_ok hassign
  rw [run_writeRegister, hzero, if_neg Bool.false_ne_true, Symbolic.mergeRegister,
    if_pos (by simpa using hne)] at hwrite
  cases hwrite

/-- What is put on the path is seen neither in the machine nor in the instruction. -/
theorem arrive_eq_ok (hrun : arrive f conditional s = .ok () s') :
    s'.engine.solid = s.engine.solid ∧ s'.instruction = { s.instruction with
      branch := true
      taken := !conditional || (s.evaluate f).toUInt64 != s.instruction.fallThrough
      next := (s.evaluate f).toUInt64 } := by
  have hpush : Retains (fun s : Frame => (s.engine.solid, s.instruction))
      (exec (pushConstraint f s.instruction.address (s.evaluate f).toUInt64)) := by
    refine retains_exec (fun hsolid hinst => Prod.ext hsolid hinst) (.look fun e => .ite (.pure _) ?_)
    exact (Exec.retains_build _).bind fun _ => fun _ => rfl
  let steered : Frame := { s with instruction := { s.instruction with
    branch := true
    taken := !conditional || (s.evaluate f).toUInt64 != s.instruction.fallThrough
    next := (s.evaluate f).toUInt64 } }
  have hsteered := hpush steered
  rw [show exec (pushConstraint f s.instruction.address
    (s.evaluate f).toUInt64) steered = .ok () s' from hrun] at hsteered
  exact Prod.mk.inj hsteered

theorem leaves_advance : Leaves advance fun _ s' => s'.Steered := by
  intro s _ s' hrun
  obtain ⟨s₁, hadvance, hkeeps, hmachine, -⟩ := run_advance s
  rw [hadvance] at hrun
  cases hrun
  refine ⟨?_, fun _ => rfl, fun _ => ?_⟩
  · show s₁.machine.register s₁.arch.programCounter =
      truncate s₁.arch.programCounter.bits s.instruction.fallThrough.toNat
    rw [hkeeps.arch, hmachine, register_programCounter, truncate_of_lt (truncate_lt _ _)]
  · exact (hkeeps.same Instruction.fallThrough).symm

/-- A branch leads to its target in the width of the program counter. -/
theorem jump_eq_ok (hrun : jump f b conditional s = .ok () s') : ∃ g s₁,
    exec (Exec.build (Build.resize f s.arch.programCounter.bits)) s = .ok g s₁ ∧
    s'.arch = s₁.arch ∧ s₁.arch = s.arch ∧
    s'.machine = s₁.machine.setRegister s₁.arch.programCounter (s₁.evaluate g) ∧
    s'.instruction = { s₁.instruction with
      expressions := s'.instruction.expressions
      branch := true
      taken := !conditional || (s₁.evaluate g).toUInt64 != s₁.instruction.fallThrough
      next := (s₁.evaluate g).toUInt64 } := by
  obtain ⟨g, s₁, hresize, hrun⟩ : ∃ g s₁, exec (Exec.build
      (Build.resize f s.arch.programCounter.bits)) s = .ok g s₁ ∧
      (writeRegister s.arch.programCounter.id g "Program Counter" b >>= fun _ =>
        arrive g conditional) s₁ = .ok () s' := of_bind_eq_ok hrun
  have hbuild : Retains (fun s : Frame => s.arch)
      (exec (Exec.build (Build.resize f s.arch.programCounter.bits))) :=
    retains_build (fun hsolid _ => congrArg Prod.fst hsolid) _
  have harch : s₁.arch = s.arch := by
    have hkept := hbuild s
    rwa [hresize] at hkept
  rw [← harch] at hrun
  have hpc := s₁.arch.programCounter_has
  obtain ⟨_, s₂, hwrite, harrive⟩ := of_bind_eq_ok hrun
  have hwidth := width_of_writeRegister hpc s₁.arch.isZeroRegister_programCounter hwrite
  obtain ⟨s₃, hwrite', hkeeps, hweakens, hvars, -⟩ := run_setRoot (s := s₁) hpc
    s₁.arch.isRoot_programCounter s₁.arch.isZeroRegister_programCounter hwidth
    "Program Counter" b
  obtain rfl : s₂ = s₃ := by
    rw [hwrite] at hwrite'
    cases hwrite'
    rfl
  have hvalue : s₂.evaluate g = s₁.evaluate g := by
    unfold Engine.evaluate valuation Context.valuation Context.variableValue
    rw [hvars, hweakens.machine]
    rfl
  obtain ⟨hsolid, hinst⟩ := arrive_eq_ok harrive
  simp only [solid, Prod.mk.injEq] at hsolid
  refine ⟨g, s₁, hresize, hsolid.1.trans hkeeps.arch, harch,
    hsolid.2.2.1.trans hweakens.machine, ?_⟩
  rw [hinst, hvalue, hkeeps.instruction]
  rfl

theorem leaves_jump (f : Formula) (b conditional : Bool) :
    Leaves (jump f b conditional) fun _ s' => s'.Steered := by
  intro s _ s' hrun
  obtain ⟨g, s₁, -, harch, -, hmachine, hinst⟩ := jump_eq_ok hrun
  have hdvd : modulus s₁.arch.programCounter.bits ∣ 2 ^ 64 := by
    cases s₁.arch <;> decide +kernel
  unfold Frame.Steered Instruction.fallThrough
  rw [hinst, harch, hmachine]
  refine ⟨?_, fun hplain => Bool.noConfusion hplain, fun htaken => ?_⟩
  · exact (register_programCounter _ _ _).trans (Nat.mod_mod_of_dvd _ hdvd).symm
  · simp only [Bool.or_eq_false_iff, bne_eq_false_iff_eq] at htaken
    exact htaken.2

/-- Unless it ends in a fault, the action has steered control. -/
def Steers (action : Step (Option Fault)) : Prop :=
  Leaves action fun fault s' => fault = none → s'.Steered

theorem steers_complete (x : Step Unit) : Steers (complete x) := by
  refine .bind fun _ s fault s' hrun _ => ?_
  obtain ⟨_, s₁, hadvance, hpure⟩ := of_bind_eq_ok hrun
  cases hpure
  exact leaves_advance s _ _ hadvance

theorem steers_completeBranch {x : Step Unit} (hx : Leaves x fun _ s' => s'.Steered) :
    Steers (completeBranch x) := by
  intro s _ s' hrun _
  obtain ⟨_, s₁, hbranch, hpure⟩ := of_bind_eq_ok hrun
  cases hpure
  exact hx s _ _ hbranch

theorem steers_fault (fault : Fault) : Steers (pure (some fault)) := by
  intro s found s' hrun hnone
  cases hrun
  cases hnone

end Step

open Step

theorem X86.steers_divide (signed : Bool) : Steers (divide signed) := by
  refine .bind fun src => .bind fun pair => .bind fun divisor => .bind fun value => ?_
  split
  · exact steers_fault _
  · refine .bind fun whole => .bind fun wide => .bind fun bound => .bind fun value => ?_
    split
    · exact steers_fault _
    · exact steers_complete _

theorem X86.Op.steers (op : Op) : Steers op.execute := by
  cases op with
  | call | ret | jump | jumpIf _ =>
    -- whatever comes before, the last part is the jump
    refine steers_completeBranch ?_
    repeat first | with_reducible exact leaves_jump _ _ _ | refine .bind fun _ => ?_
  | divide signed => exact steers_divide signed
  | breakpoint | halt => exact steers_fault _
  | _ => exact steers_complete _

theorem AArch64.Op.steers (op : Op) : Steers op.execute := by
  cases op with
  | branch | branchIf _ | branchLink | branchRegister | branchZero _ =>
    refine steers_completeBranch ?_
    repeat first | with_reducible exact leaves_jump _ _ _ | refine .bind fun _ => ?_
  | ret =>
    refine steers_completeBranch (.bind fun src => ?_)
    cases src with
    | some src => exact .bind fun _ => .bind fun _ => leaves_jump _ _ _
    | none => exact .bind fun _ => .bind fun _ => .bind fun _ => leaves_jump _ _ _
  | _ => exact steers_complete _

/-- Every operation that completes has steered control. -/
theorem Architecture.steers {arch : Architecture} {opcode : Nat} {act : Step (Option Fault)}
    (hact : arch.semantics? opcode = some act) : Steers act := by
  obtain ⟨op, -, -, rfl⟩ | ⟨op, -, -, rfl⟩ := semantics?_cases hact
  · exact op.steers
  · exact op.steers

theorem Step.exists_semantics (hrun : process s = .ok none s') :
    ∃ act, s.arch.semantics? s.instruction.opcode = some act := by
  cases hact : s.arch.semantics? s.instruction.opcode with
  | some act => exact ⟨act, rfl⟩
  | none =>
    have hopcode : s.start.arch.semantics? s.start.instruction.opcode = none := hact
    rw [run_process, run_bind, run_execute, hopcode] at hrun
    cases settle_eq_ok hrun

/-! Conditional branches. -/

/-- A conditional branch: what it tests, the place of its target among the operands, and the
values of the test on which it goes there. -/
structure Conditional where
  test : Step Formula
  target : Nat
  goes : Nat → Bool

namespace Conditional

/-- A branch on a condition of the flags. -/
def onFlags (condition : Step (Formula × Bool)) : Conditional where
  test := do return (← condition).1
  target := 0
  goes value := value == 1

/-- A branch on whether a register is zero. -/
def onRegister (nonZero : Bool) : Conditional where
  test := do Step.read (← operand 0)
  target := 1
  goes value := (value != 0) == nonZero

/-- The formulas of what a branch tests and of its target. -/
def read (C : Conditional) (width : Nat) : Step (Formula × Formula) := do
  let value ← C.test
  let target ← readSized (← operand C.target) width
  return (value, target)

end Conditional

def X86.Op.conditional? : X86.Op → Option Conditional
  | .jumpIf condition => some (.onFlags condition.read)
  | _ => none

def AArch64.Op.conditional? : AArch64.Op → Option Conditional
  | .branchIf condition => some (.onFlags condition.read)
  | .branchZero nonZero => some (.onRegister nonZero)
  | _ => none

/-- The conditional branch of an opcode, if it is one. -/
def Architecture.conditional? (arch : Architecture) (opcode : Nat) : Option Conditional :=
  if arch.isX86 then (X86.operation? opcode).bind X86.Op.conditional?
  else (AArch64.operation? opcode).bind AArch64.Op.conditional?

/-- A construction that is carried out makes what it is known to make. -/
theorem Step.of_build_eq_ok {α : Type} {x : Build α} {post : α → Prop} {a : α}
    (h : Build.Ensures s.modes.rules x post) (hrun : exec (Exec.build x) s = .ok a s') :
    (∃ pool, s' = s.withPool pool) ∧ post a := by
  obtain ⟨r, hr, hpost, -⟩ := h
  obtain ⟨pool, hbuild⟩ := run_build hr
  rw [hbuild] at hrun
  cases r with
  | error e => cases hrun
  | ok a =>
    cases hrun
    exact ⟨⟨pool, rfl⟩, hpost a rfl⟩

namespace Conditional

open Upkeep (Rests of_read_eq_ok)

/-- The branch is taken if what it reads says so, and its target is not the next instruction. -/
def Decides (C : Conditional) (s s' : Frame) : Prop :=
  ∃ f g s₁, C.read s.arch.programCounter.bits s = .ok (f, g) s₁ ∧
    (s'.instruction.taken = true ↔ C.goes (s.evaluate f) = true ∧
      s.evaluate g ≠ s.instruction.fallThrough.toNat)

variable {s₀ s₁ s₂ s₃ : Frame} {c t : Formula}

theorem of_tests {C : Conditional} {src : Operand} {width : Nat} (hs : s₀.bare.Held s)
    (htests : s₀.bare.alone.Reads s C.test C.test fun c _ => c.Formed s.scope)
    (htest : C.test s = .ok c s₁) (hsrc : operand C.target s₁ = .ok src s₂)
    (htarget : readSized src width s₂ = .ok t s₃) :
    C.read width s = .ok (c, t) s₃ ∧ (Rests s s₃ ∧ s₀.bare.Held s₃) ∧
      c.Formed s.scope ∧ t.Formed s.scope := by
  have hread : C.read width s = .ok (c, t) s₃ := by
    show (C.test >>= fun c => operand C.target >>= fun src =>
      readSized src width >>= fun t => pure (c, t)) s = _
    rw [run_bind, htest]
    simp only [run_bind, hsrc, htarget]
    rfl
  have hreads : s₀.bare.alone.Reads s (C.read width) (C.read width) fun p _ =>
      p.1.Formed s.scope ∧ p.2.Formed s.scope := by
    have L := s₀.bare_laws.steps.diagonal.laws
    refine htests.bind fun c c' hc => (L.operand C.target).bind fun src src' hsrc => ?_
    obtain rfl := hsrc.eq
    refine (L.readSized False.elim hsrc.source (fun _ _ => hsrc.source)).bind fun t t' ht => ?_
    exact .pure ⟨hc, ht.2.formed⟩
  exact ⟨hread, of_read_eq_ok hreads ⟨rfl, rfl, rfl, rfl, rfl⟩ hs hread⟩

variable (hbounded : s.Bounded)
  (hnext : s.instruction.fallThrough.toNat < modulus s.arch.programCounter.bits)

include hbounded hnext

/-- A choice between a target and the next instruction is taken, if its condition holds and
the target is another. -/
theorem taken_of_choice (hrests : Rests s s₁) (harch : s₁.arch = s.arch)
    (hc : c.Formed s.scope) (ht : t.Formed s.scope)
    (hchoice : exec (Exec.build (Build.ite c t (.constant s.instruction.fallThrough.toNat
      s.arch.programCounter.bits))) s₁ = .ok f s₂)
    (hjump : jump f b true s₂ = .ok () s') :
    s'.instruction.taken = true ↔ s.evaluate c = 1 ∧
      s.evaluate t ≠ s.instruction.fallThrough.toNat := by
  have hpc := s.arch.programCounter_has
  have hn : (constant s.instruction.fallThrough.toNat s.arch.programCounter.bits).Formed
      s.scope := (Formed.hereditary _).constant hpc.wordWidth hnext
  obtain ⟨⟨pool, rfl⟩, hlawful, hrenders⟩ := of_build_eq_ok ((Call.ite c t _).keptAs
    (Formed.hereditary s.scope) _ (by simp [Call.plain, hc, ht, hn])
    fun h : False => h.elim) hchoice
  obtain ⟨hone, -, hwidth, -⟩ := hlawful
  have hbits : f.width = s.arch.programCounter.bits := hrenders.width_eq.trans hwidth
  have hfits : s.valuation.Fits s.scope := hbounded.fits _
  have hcondition : s.evaluate c < 2 := by
    rw [Engine.evaluate, value_eq_eval]
    exact lt_of_lt_of_eq (hc.eval_lt hfits) (by rw [hone]; rfl)
  have hvalue : s.evaluate f = if s.evaluate c = 0 then
      s.instruction.fallThrough.toNat else s.evaluate t := by
    simp only [Engine.evaluate, value_eq_eval]
    exact hrenders.eval_eq _ hfits
  have hlt : s.evaluate f < 2 ^ 64 := by
    rw [Engine.evaluate, value_eq_eval]
    refine lt_of_lt_of_le (hrenders.kept.eval_lt hfits) ?_
    rw [hbits]
    exact modulus_mono (hpc.parentBits_le.trans' (hpc.whole s.arch.isRoot_programCounter).2.le)
  obtain ⟨g, s₃, hresize, -, -, -, hinst⟩ := jump_eq_ok hjump
  have hsame : Build.resize f (s₁.withPool pool).arch.programCounter.bits = pure f := by
    rw [show (s₁.withPool pool).arch = s.arch from harch, ← hbits]
    simp [Build.resize]
  obtain ⟨⟨pool', rfl⟩, rfl⟩ := of_build_eq_ok (hsame ▸ .pure rfl : Build.Ensures _ _ (· = f)) hresize
  rw [hinst]
  show (!true || (s₁.evaluate g).toUInt64 != s₁.instruction.fallThrough) = true ↔ _
  rw [hrests.evaluate, hrests.instruction, Bool.not_true, Bool.false_or, bne_iff_ne, ne_eq,
    ← UInt64.toNat_inj,
    show (s.evaluate g).toUInt64.toNat = _ from Nat.mod_eq_of_lt hlt, hvalue]
  split <;> omega

variable (hs : s₀.bare.Held s)

include hs

theorem onFlags_decides {condition : Step (Formula × Bool)} {p : Formula × Bool} {src : Operand}
    (hcondition : s₀.bare.alone.Reads s condition condition fun p _ =>
      p.1.Formed s.scope)
    (hholds : condition s = .ok p s₁) (hsrc : operand 0 s₁ = .ok src s₂)
    (htarget : readSized src s.arch.programCounter.bits s₂ = .ok t s₃) {s₄ : Frame}
    (hchoose : choose p.1 t s.arch.programCounter.bits s₃ = .ok f s₄)
    (hjump : jump f b true s₄ = .ok () s') :
    (onFlags condition).Decides s s' := by
  have htest : (onFlags condition).test s = .ok p.1 s₁ := by
    show (condition >>= fun p => pure p.1) s = _
    rw [run_bind, hholds]
    rfl
  obtain ⟨hread, ⟨hrests, hheld⟩, hc, ht⟩ :=
    of_tests hs (hcondition.bind fun _ _ hp => .pure hp) htest hsrc htarget
  refine ⟨p.1, t, s₃, hread, ?_⟩
  obtain ⟨next, s₅, hnextIs, hchoose⟩ := of_bind_eq_ok hchoose
  cases hnextIs
  obtain ⟨n, s₆, hconstant, hchoice⟩ := of_bind_eq_ok hchoose
  obtain ⟨⟨pool, rfl⟩, -, rfl⟩ := of_build_eq_ok (Build.Makes.word _ _).ensures hconstant
  rw [hrests.instruction, truncate_of_lt hnext] at hchoice
  rw [show (onFlags condition).goes (s.evaluate p.1) = true ↔ s.evaluate p.1 = 1 from beq_iff_eq]
  exact taken_of_choice hbounded hnext (hrests.quiet (s₃.quiet_withPool pool))
    (hheld.arch.trans hs.arch.symm) hc ht hchoice hjump

theorem onRegister_decides {nonZero : Bool} (harch : s.arch = .aarch64)
    (hrun : branchZero nonZero s = .ok () s') : (onRegister nonZero).Decides s s' := by
  obtain ⟨src, s₁, hsrc, hrun⟩ := of_bind_eq_ok hrun
  obtain ⟨value, s₂, hvalue, hrun⟩ := of_bind_eq_ok hrun
  obtain ⟨op, s₃, hop, hrun⟩ := of_bind_eq_ok hrun
  obtain ⟨t, s₄, htarget, hrun⟩ := of_bind_eq_ok hrun
  obtain ⟨next, s₅, hnextIs, hrun⟩ := of_bind_eq_ok hrun
  cases hnextIs
  obtain ⟨n, s₆, hconstant, hrun⟩ := of_bind_eq_ok hrun
  obtain ⟨zero, s₇, hzero, hrun⟩ := of_bind_eq_ok hrun
  obtain ⟨c, s₈, hcompare, hrun⟩ := of_bind_eq_ok hrun
  obtain ⟨f, s₉, hchoice, hrun⟩ := of_bind_eq_ok hrun
  obtain ⟨b, s₁₀, htainted, hjump⟩ := of_bind_eq_ok hrun
  cases htainted
  have hbits : targetWidth = s.arch.programCounter.bits := by
    rw [harch]
    rfl
  rw [hbits] at htarget
  have htest : (onRegister nonZero).test s = .ok value s₂ := by
    show (operand 0 >>= Step.read) s = _
    rw [run_bind, hsrc]
    exact hvalue
  have htests : s₀.bare.alone.Reads s (onRegister nonZero).test (onRegister nonZero).test
      fun c _ => c.Formed s.scope := by
    have L := s₀.bare_laws.steps.diagonal.laws
    refine (L.operand 0).bind fun src src' hsrc => ?_
    obtain rfl := hsrc.eq
    exact (L.read hsrc.source (fun _ _ => hsrc.source)).mono fun _ _ hvalue => hvalue.2.formed
  obtain ⟨hread, ⟨hrests, hheld⟩, hformed, ht⟩ := of_tests hs htests htest hop htarget
  refine ⟨value, t, s₄, hread, ?_⟩
  obtain ⟨⟨pool, rfl⟩, -, rfl⟩ := of_build_eq_ok (Build.Makes.word _ _).ensures hconstant
  obtain ⟨⟨pool', rfl⟩, hwidth, rfl⟩ := of_build_eq_ok (Build.Makes.word _ _).ensures hzero
  have hnone : (constant (truncate value.width 0) value.width).Formed s.scope :=
    (Formed.hereditary _).constant hwidth (truncate_lt _ _)
  obtain ⟨⟨pool'', rfl⟩, -, hrenders⟩ := of_build_eq_ok ((Call.compare _ value _).keptAs
    (Formed.hereditary s.scope) _ (by simp [Call.plain, hformed, hnone])
    fun h : False => h.elim) hcompare
  have hgoes : s.evaluate c = 1 ↔ (onRegister nonZero).goes (s.evaluate value) := by
    simp only [Engine.evaluate, value_eq_eval]
    rw [hrenders.eval_eq s.valuation (hbounded.fits _)]
    cases nonZero <;>
      simp [Call.plain, eval, onRegister, CompareOp.holds, truncate]
  rw [hrests.instruction, hbits, truncate_of_lt hnext] at hchoice
  rw [← hgoes]
  exact taken_of_choice hbounded hnext (((hrests.quiet (s₄.quiet_withPool pool)).quiet
    (Frame.quiet_withPool _ pool')).quiet (Frame.quiet_withPool _ pool''))
    (hheld.arch.trans hs.arch.symm) hrenders.kept ht hchoice hjump

end Conditional

/-- A conditional branch is taken as its condition and its target say. -/
theorem Architecture.decides {s₀ : Frame} {C : Conditional} {opcode : Nat}
    {act : Step (Option Fault)} {fault : Option Fault} (hs : s₀.bare.Held s)
    (hbounded : s.Bounded)
    (hnext : s.instruction.fallThrough.toNat < modulus s.arch.programCounter.bits)
    (hact : s.arch.semantics? opcode = some act)
    (hC : s.arch.conditional? opcode = some C) (hrun : act s = .ok fault s') :
    C.Decides s s' := by
  have L := s₀.bare_laws.steps.diagonal.laws
  obtain ⟨op, hx86, hop, rfl⟩ | ⟨op, harm, hop, rfl⟩ := semantics?_cases hact
  · rw [conditional?, if_pos hx86, hop, Option.bind_some] at hC
    cases op with
    | jumpIf condition =>
      cases hC
      obtain ⟨_, _, hrun, hpure⟩ := of_bind_eq_ok hrun
      cases hpure
      obtain ⟨_, _, harch, hrun⟩ := of_bind_eq_ok hrun
      cases harch
      obtain ⟨p, s₁, hholds, hrun⟩ := of_bind_eq_ok hrun
      obtain ⟨src, s₂, hsrc, hrun⟩ := of_bind_eq_ok hrun
      obtain ⟨t, s₃, htarget, hrun⟩ := of_bind_eq_ok hrun
      obtain ⟨f, s₄, hchoose, hrun⟩ := of_bind_eq_ok hrun
      obtain ⟨b, _, htainted, hjump⟩ := of_bind_eq_ok hrun
      cases htainted
      have hwidth : s.arch.addressWidth = s.arch.programCounter.bits := by
        cases s.arch <;> rfl
      rw [hwidth] at htarget hchoose
      exact Conditional.onFlags_decides hbounded hnext hs
        ((condition.readLevel_lockstep L).mono fun p p' hp => hp.1.2.formed) hholds hsrc htarget
        hchoose hjump
    | _ => cases hC
  · rw [conditional?, if_neg (by rw [harm]; decide), hop, Option.bind_some] at hC
    cases op with
    | branchIf condition =>
      cases hC
      obtain ⟨_, _, hrun, hpure⟩ := of_bind_eq_ok hrun
      cases hpure
      obtain ⟨p, s₁, hholds, hrun⟩ := of_bind_eq_ok hrun
      obtain ⟨src, s₂, hsrc, hrun⟩ := of_bind_eq_ok hrun
      obtain ⟨t, s₃, htarget, hrun⟩ := of_bind_eq_ok hrun
      obtain ⟨f, s₄, hchoose, hjump⟩ := of_bind_eq_ok hrun
      have hwidth : targetWidth = s.arch.programCounter.bits := by
        rw [harm]
        rfl
      rw [hwidth] at htarget hchoose
      refine Conditional.onFlags_decides hbounded hnext hs
        ((condition.read_lockstep L).mono fun p p' hp => ?_) hholds hsrc htarget hchoose hjump
      obtain ⟨_, hknows, -⟩ := hp
      exact hknows.2.formed
    | branchZero nonZero =>
      cases hC
      obtain ⟨_, _, hrun, hpure⟩ := of_bind_eq_ok hrun
      cases hpure
      exact Conditional.onRegister_decides hbounded hnext hs harm hrun
    | _ => cases hC

theorem Engine.Kept.decides {given : List Formula} {s₁ s₂ : Frame} {C : Conditional}
    {act : Step (Option Fault)} {fault : Option Fault} (h : s.engine.Kept False given)
    (hknown : ∀ op ∈ s.instruction.operands, op.Known)
    (hnext : s.instruction.fallThrough.toNat < modulus s.arch.programCounter.bits)
    (hact : s.arch.semantics? s.instruction.opcode = some act)
    (hC : s.arch.conditional? s.instruction.opcode = some C)
    (hresolve : resolveOperands s.start = .ok () s₁) (hrun : act s₁ = .ok fault s₂) :
    ∃ f g s₃, C.read s.arch.programCounter.bits s₁ = .ok (f, g) s₃ ∧
      (s₂.instruction.taken = true ↔ C.goes (s.evaluate f) = true ∧
        s.evaluate g ≠ s.instruction.fallThrough.toNat) := by
  have hresolved := s.start.bare_laws.steps.resolveOperands (s := s.start) (fun _ => trivial)
    ⟨⟨rfl, rfl, .refl _, h.grounded⟩, hknown, trivial⟩
  rw [hresolve] at hresolved
  obtain ⟨hheld, operands, hrests⟩ := hresolved
  have harch : s₁.arch = s.arch := hheld.arch
  have hfall : s₁.instruction.fallThrough = s.instruction.fallThrough := by
    rw [hrests.instruction]
    rfl
  rw [← harch] at hnext hact hC ⊢
  rw [← hfall] at hnext ⊢
  obtain ⟨f, g, s₃, hread, hdecides⟩ := Architecture.decides hheld (hrests.bounded h.bounded)
    hnext hact hC hrun
  rw [hrests.evaluate, hrests.evaluate] at hdecides
  exact ⟨f, g, s₃, hread, hdecides⟩

/-- An instruction that completes has put the program counter where it says that control
goes, in the program counter's width: past the instruction, or where a branch leads that is
taken. The two are one number where the width holds it. In an engine that operations lead to,
a conditional branch is taken if its condition holds and its target is not the next
instruction, where the width holds the address of that. -/
theorem control_flow_follows_counter (hrun : Step.process s = .ok none s') :
    s'.Steered ∧ (s'.instruction.next.toNat < modulus s'.arch.programCounter.bits →
      s'.machine.register s'.arch.programCounter = s'.instruction.next.toNat) ∧
    ∀ {arch modes given C}, Engine.Turns False { arch, modes } [] s.engine given →
      (∀ op ∈ s.instruction.operands, op.Known) →
      s.arch.conditional? s.instruction.opcode = some C →
      s.instruction.fallThrough.toNat < modulus s.arch.programCounter.bits →
      ∃ f g s₁, C.read s.arch.programCounter.bits s.start.resolved = .ok (f, g) s₁ ∧
        (s'.instruction.taken = true ↔ C.goes (s.evaluate f) = true ∧
          s.evaluate g ≠ s.instruction.fallThrough.toNat) := by
  obtain ⟨act, hact⟩ := Step.exists_semantics hrun
  obtain ⟨s₁, s₂, hresolve, haction, hsettle⟩ := Step.process_eq_ok hact hrun
  have hview : Retains (fun s : Frame => (s.arch, s.machine,
      s.instruction.branch, s.instruction.taken, s.instruction.next, s.instruction.fallThrough))
      (Step.settle none) := Step.retains_settle (fun _ _ _ _ _ => rfl) none
  have hkept := Step.retains_iff.1 hview s₂
  rw [hsettle] at hkept
  simp only [Step.after, Prod.mk.injEq] at hkept
  obtain ⟨harch, hmachine, hbranch, htaken, hnext, hfall⟩ := hkept
  have hsteered : s'.Steered := by
    unfold Frame.Steered
    rw [harch, hmachine, hbranch, htaken, hnext, hfall]
    exact Architecture.steers hact s₁ none s₂ haction rfl
  refine ⟨hsteered, fun hlt => hsteered.1.trans (truncate_of_lt hlt), ?_⟩
  intro arch modes given C hturns hknown hC hfits
  rw [htaken, Frame.resolved, hresolve]
  exact (hturns.kept (.start False arch modes)).1.decides hknown hfits hact hC hresolve haction

/-- Branches if the stack pointer is zero. -/
def branchIfEmpty : Instruction :=
  .decoded 0x400000 4 23 [.register Architecture.aarch64.stackPointer,
    .immediate ⟨0x401000, 64⟩] ""

/-- In a new engine the stack pointer is zero, and the branch is taken. -/
theorem control_flow_follows_counter_branchIfEmpty :
    ∃ s', Step.process ⟨.new .aarch64, branchIfEmpty⟩ = .ok none s' ∧
      s'.instruction.taken = true ∧ s'.instruction.next = 0x401000 ∧
      s'.machine.register s'.arch.programCounter = 0x401000 ∧
      ∃ f g s₁, (Conditional.onRegister false).read 64 (Frame.resolved (Frame.start
          ⟨.new .aarch64, branchIfEmpty⟩)) = .ok (f, g) s₁ ∧
        (Conditional.onRegister false).goes (Engine.evaluate (.new .aarch64) f) = true := by
  obtain ⟨s', hrun, htaken, hnext, hwidth⟩ : ∃ s', Step.process
      ⟨.new .aarch64, branchIfEmpty⟩ = .ok none s' ∧
      s'.instruction.taken = true ∧ s'.instruction.next = 0x401000 ∧
      s'.arch.programCounter.bits = 64 := Step.exists_frame (by decide +kernel)
  obtain ⟨-, hcounter, hdecides⟩ := control_flow_follows_counter hrun
  obtain ⟨f, g, s₁, hread, hiff⟩ := hdecides (C := .onRegister false) .none
    (Instruction.decoded_two ⟨_, aarch64.stackPointer_has⟩ trivial)
    (congrArg (Option.bind · AArch64.Op.conditional?)
      (by decide +kernel : AArch64.operation? 23 = some (.branchZero false))) (by decide)
  refine ⟨s', hrun, htaken, hnext, ?_, f, g, s₁, hread, (hiff.1 htaken).1⟩
  rw [hcounter (by rw [hwidth, hnext]; decide), hnext]
  rfl

/-- At the top of the address space an instruction that is no branch says that control goes
on beyond it, and a jump that goes on is said to be taken. -/
theorem counter_wraps_and_address_does_not :
    (∃ s', Step.process ⟨.new .x86,
        .decoded 0xfffffffe 4 65 [] ""⟩ = .ok none s' ∧
      s'.instruction.next = 0x100000002 ∧
      s'.machine.register Architecture.x86.programCounter = 2) ∧
    ∃ s', Step.process ⟨.new .x86,
        .decoded 0xfffffffe 2 45 [.immediate ⟨0x1000, 32⟩] ""⟩ = .ok none s' ∧
      Machine.flag {} .x86 X86.zf = false ∧ s'.instruction.taken = true ∧
      s'.machine.register Architecture.x86.programCounter = 0 := by
  exact ⟨Step.exists_frame (by decide +kernel), Step.exists_frame (by decide +kernel)⟩

end Concolic
