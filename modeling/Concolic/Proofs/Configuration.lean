import Concolic.Proofs.Lockstep.Instruction
import Concolic.Proofs.Reachable

/-
  Modes do not change what is executed.

  The same actions are done with two engines under two settings of the modes. Every
  action leaves the engines abreast (`Action.apply_abreast`), so that after any number
  of them the machines are the same, and control has gone the same way
  (`execution_unchanged`). Where the settings differ only in the shape that formulas are
  given, the formulas have the same values too, whatever the values of the variables
  (`formulas_unchanged`). Memory kept as an array does change what is executed
  (`array_misses_wrap`).
-/

namespace Concolic

open Architecture Exec Instruction Symbolic Engine Machine Comparison

variable {k : Comparison} {hidden : Place → Prop} {modes : Modes} {e e' : Engine} {reg : Register}
  {context : Context} {given : List Formula}

/-! Values set from outside. -/

namespace Engine

namespace Sound

theorem setRegister (h : e.Sound k modes) (reg : Register) (value : Nat) :
    (e.setRegister reg value).Sound k modes where
  agrees := h.agrees.setRegister reg value
  __ := h
  reads other hother := by
    rcases h.reads other hother with hhas | ⟨hfree, hword⟩
    · exact .inl hhas
    · refine .inr ⟨Option.eq_none_iff_forall_ne_some.2 fun id hid => ?_, hword⟩
      rw [of_getElem?_erase hid] at hfree
      cases hfree

theorem setByte (h : e.Sound k modes) (address : Address) (value : UInt8) :
    ({ e with
      machine := e.machine.setByte address value,
      symbolic := e.symbolic.concretizeByte address } : Engine).Sound k modes :=
  ⟨h.agrees.setByte address value, h.arch, h.modes, h.reads⟩

end Sound

theorem stays_setRegister (e : Engine) (value : Nat) {place : Place}
    (h : place ≠ .root reg.parent) : e.Stays (e.setRegister reg value) place := by
  cases place with
  | byte address => exact ⟨rfl, rfl⟩
  | root id =>
    have hne : reg.parent ≠ id := fun heq => h (heq ▸ rfl)
    have hcmp : compare reg.parent id ≠ .eq := mt Std.LawfulEqCmp.eq_of_compare hne
    simp [Stays, cell?, valueAt, Engine.setRegister, concretizeRegister,
      Std.ExtTreeMap.getElem?_erase, hcmp, root_setRegister, hne]

theorem stays_setByte (e : Engine) {address : Address} (value : UInt8) {place : Place}
    (h : place ≠ .byte address) : e.Stays { e with
      machine := e.machine.setByte address value,
      symbolic := e.symbolic.concretizeByte address } place := by
  cases place with
  | root id => exact ⟨rfl, rfl⟩
  | byte other =>
    have hne : address ≠ other := fun heq => h (heq ▸ rfl)
    have hcmp : compare address other ≠ .eq := mt Std.LawfulEqCmp.eq_of_compare hne
    simp [Stays, cell?, valueAt, Symbolic.concretizeByte, dropAligned,
      Std.ExtTreeMap.getElem?_erase, hcmp, Machine.byte_setByte, hne]

namespace Abreast

section

-- nothing is hidden, so that all registers of the architecture and all bytes are the same
variable (h : e.Abreast k hidden e') (hk : k.tracked = false) (hshown : ∀ place, ¬ hidden place)

include h hk hshown

theorem machine_register (hreg : k.arch.Has reg) :
    e.machine.register reg = e'.machine.register reg :=
  h.read_eq (.register reg) ⟨source_of_has hreg, fun htracked =>
    Bool.noConfusion (hk.symm.trans htracked)⟩ (hshown _)

theorem setRegister (hreg : k.arch.Has reg) (value : Nat) :
    (e.setRegister reg value).Abreast k hidden (e'.setRegister reg value) := by
  have hextends : ∀ d : Engine, d.Extends (d.setRegister reg value) := fun d =>
    ⟨.refl _, fun _ _ hf => hf⟩
  refine h.change (h.left.setRegister reg value) (h.right.setRegister reg value) (hextends e)
    (hextends e') (fun site hsite _ => ?_) h.taint fun hexact => (h.exact hexact).fewer rfl rfl
      (e.symbolic.fewer_concretizeRegister reg) (e'.symbolic.fewer_concretizeRegister reg) rfl rfl
  by_cases hsame : site.place = .root reg.parent
  · -- the root is not bound any more, and what was read of it was the same
    have hfree : ∀ d : Engine, (d.setRegister reg value).symbolic.cell? site.place = none := by
      simp [hsame, cell?, Engine.setRegister, concretizeRegister]
    refine .inr fun v v' _ => ?_
    rw [meaning_free (hfree e), meaning_free (hfree e')]
    cases site with
    | byte address => cases hsame
    | register other =>
      replace hsame : other.parent = reg.parent := Place.root.inj hsame
      obtain ⟨root, hroot, hisRoot, -⟩ := hreg.root
      have hrootHas := has_of_register? hroot
      have hhas : k.arch.Has other :=
        hsite.1.known.has hrootHas hisRoot ((register?_id hroot).trans hsame.symm)
      have hvalue := h.machine_register hk hshown hrootHas
      rw [Machine.register, Machine.register, parent_root hroot hisRoot] at hvalue
      simp only [readAt, Machine.register, Engine.setRegister, root_setRegister, if_pos hsame.symm]
      exact hhas.read_write_congr (hsame ▸ hroot) hvalue reg value
  · have hstays : ∀ d : Engine, d.Stays (d.setRegister reg value) site.place := fun d =>
      d.stays_setRegister value hsame
    exact .inl ⟨hshown _, hstays e, hstays e'⟩

omit hk in
theorem setByte (address : Address) (value : UInt8) :
    ({ e with
      machine := e.machine.setByte address value,
      symbolic := e.symbolic.concretizeByte address } : Engine).Abreast k hidden { e' with
      machine := e'.machine.setByte address value,
      symbolic := e'.symbolic.concretizeByte address } := by
  have hextends : ∀ d : Engine, d.Extends { d with
      machine := d.machine.setByte address value,
      symbolic := d.symbolic.concretizeByte address } := fun d => ⟨.refl _, fun _ _ hf => hf⟩
  refine h.change (h.left.setByte address value) (h.right.setByte address value) (hextends e)
    (hextends e') (fun site _ _ => ?_) h.taint fun hexact => (h.exact hexact).fewer rfl rfl
      (e.symbolic.fewer_concretizeByte address) (e'.symbolic.fewer_concretizeByte address) rfl rfl
  by_cases hsame : site.place = .byte address
  · refine .inr fun v v' _ => ?_
    cases site with
    | register reg => cases hsame
    | byte other =>
      obtain rfl := Place.byte.inj hsame
      simp [meaning, Site.place, cell?, Symbolic.concretizeByte, dropAligned, readAt]
  · exact .inl ⟨hshown _, e.stays_setByte value hsame, e'.stays_setByte value hsame⟩

end

theorem setMemory (hshown : ∀ place, ¬ hidden place) (bytes : List UInt8) :
    ∀ {e e' : Engine}, e.Abreast k hidden e' → ∀ address : Address,
      (e.setMemory address bytes).Abreast k hidden (e'.setMemory address bytes) := by
  induction bytes with
  | nil => exact fun h _ => h
  | cons value rest ih =>
    intro e e' h address
    have hstep := ih (h.setByte hshown address value) (address + 1)
    unfold Engine.setMemory at hstep ⊢
    rw [List.length_cons, Access.addressesFrom_succ, List.foldl_cons, List.foldl_cons,
      setBytes, setBytes]
    exact hstep

/-! Symbolization. -/

theorem unhide {dst : Operand} (h : e.Abreast k (HiddenAfter hidden dst (k.tracked && false)) e') :
    e.Abreast k hidden e' := by
  refine h.mono fun place hh => ?_
  rcases hh with ⟨-, hl⟩ | ⟨-, hh⟩
  · rw [Bool.and_false] at hl
    cases hl
  · exact hh

section

variable (h : e.Abreast k hidden e') (hk : k.tracked = false) (hshown : ∀ place, ¬ hidden place)

include h hk hshown

theorem symbolizeRegister (hreg : k.arch.Has reg)
    (hmerge : reg.isRoot = true ∨ reg.merge = .preserve) :
    (after (symbolizeRegister reg e)).Abreast k hidden (after (symbolizeRegister reg e')) ∧
      (k.exact = true → answer (symbolizeRegister reg e) = answer (symbolizeRegister reg e')) := by
  have hw := (source_of_has hreg).wordWidth
  have hvalue := h.machine_register hk hshown hreg
  have harch := h.left.arch
  have harch' := h.right.arch
  obtain ⟨pool, root, g, hroot, hisRoot, hg, hgives, hrun⟩ :=
    h.left.agrees.run_symbolizeRegister (by rw [harch]; exact hreg) hmerge
  obtain ⟨pool', root', g', hroot', -, hg', hgives', hrun'⟩ :=
    h.right.agrees.run_symbolizeRegister (by rw [harch']; exact hreg) hmerge
  obtain rfl : root = root' := by
    rw [harch] at hroot
    rw [harch'] at hroot'
    exact Option.some.inj (hroot.symm.trans hroot')
  have hhas : k.arch.Has root := by
    rw [harch] at hroot
    exact has_of_register? hroot
  rw [hrun, hrun']
  rw [← hvalue] at hgives' ⊢
  obtain ⟨h₁, hvar⟩ := h.addVariable hw (e.machine.register_lt reg) (some reg.name) pool pool'
  -- what each run binds the root to corresponds
  have hmatch : Build.Matches e.modes.rules e'.modes.rules
      (e.symbolic.mergeRegister e.arch e.machine reg (.var e.vars.size reg.bits))
      (e'.symbolic.mergeRegister e'.arch e'.machine reg (.var e'.vars.size reg.bits))
      (Knows k _ _ false) :=
    h₁.mergeRegister (fun ht => Bool.noConfusion (hk.symm.trans ht))
      (fun place hh => (hshown place hh).elim) (hvar false)
  have hknows := hmatch.of_answers hg hg'
  have hsound : ∀ {d : Engine} {modes : Modes} {pool : Pool} {g : Formula}, d.Sound k modes →
      (d.context.addVariable reg.bits (some reg.name) (e.machine.register reg)).Gives g root.bits
        (d.machine.register root) →
      ((d.addVariable reg.bits (some reg.name) (e.machine.register reg) pool).recorded g
        (.register root) "Register symbolization" none).Sound k modes := by
    intro d modes pool g hd hgives
    have hd₁ := hd.weaken (d.weakens_addVariable hw (some reg.name) (e.machine.register reg) pool)
    refine hd₁.bind (fun _ heq => Origin.register.inj heq ▸ ⟨hhas, hisRoot⟩) (hd₁.agrees.bindRegister (hd₁.arch ▸ hhas) hisRoot ?_
      (fun _ _ => rfl) fun _ => rfl)
    exact hgives.later fun _ _ h => h
  refine ⟨(h₁.bind (Operand.covers_root hisRoot) (hsound h.left hgives) (hsound h.right hgives')
    hknows (fun _ _ => rfl) (fun _ _ => rfl) fun hexact => ?_).unhide,
    fun hexact => ?_⟩
  · simp only [Expression.tag, (h.exact hexact).size_eq]
  · simp only [answer, (h.exact hexact).size_eq]

omit hk in
theorem accessValue_eq (access : Access) :
    e.machine.accessValue access = e'.machine.accessValue access :=
  Machine.value_congr fun _ _ => h.byte_eq (hshown _)

omit hk in
theorem symbolizeMemory (access : Access) :
    (after (Engine.symbolizeMemory access e)).Abreast k hidden
        (after (Engine.symbolizeMemory access e')) ∧
      (k.exact = true → answer (Engine.symbolizeMemory access e) =
        answer (Engine.symbolizeMemory access e')) := by
  have hvalue := h.accessValue_eq hshown access
  obtain ⟨pool, hrun⟩ := Engine.run_symbolizeMemory access h.left.agrees.noArray
  obtain ⟨pool', hrun'⟩ := Engine.run_symbolizeMemory access h.right.agrees.noArray
  rw [hrun, hrun', ← hvalue]
  by_cases hw : Formula.WordWidth access.bits
  · rw [if_pos hw, if_pos hw]
    obtain ⟨hmax, hlt⟩ := Agrees.accessValue_lt hw e.machine
    obtain ⟨h₁, hvar⟩ := h.addVariable hw hlt none pool pool'
    -- whether memory can be bound rests on the width alone
    cases hcheck : checkOrigin (.var e.vars.size access.bits) (.memory access) with
    | error error =>
      have hcheck' : checkOrigin (.var e'.vars.size access.bits)
          (.memory access) = .error error := hcheck
      rw [hcheck']
      exact ⟨h₁, fun _ => rfl⟩
    | ok u =>
      have hcheck' : checkOrigin (.var e'.vars.size access.bits) (.memory access) = .ok u := hcheck
      rw [hcheck']
      obtain ⟨-, hbits⟩ := checkOrigin_memory hcheck
      refine ⟨(h₁.bind Operand.covers_memory (h₁.left.bind (by simp) ?_)
        (h₁.right.bind (by simp) ?_) (hvar false) (fun _ _ => rfl) (fun _ _ => rfl)
        fun hexact => ?_).unhide,
        fun hexact => ?_⟩
      · exact h₁.left.agrees.bindAccess False.elim hbits hmax
          (e.context.gives_addVariable hw hlt none pool)
      · refine h₁.right.agrees.bindAccess False.elim hbits hmax ?_
        rw [← hvalue]
        exact e'.context.gives_addVariable hw hlt none pool'
      · simp only [Expression.tag, (h.exact hexact).size_eq]
      · simp only [answer, (h.exact hexact).size_eq]
  · rw [if_neg hw, if_neg hw]
    exact ⟨h.withPool pool pool', fun _ => rfl⟩

end

end Abreast

/-! New engines. -/

theorem Sound.new (session : Session context given) (harray : modes.isOn .memoryArray = false)
    (haligned : modes.isOn .alignedMemory = false) :
    ({ arch := k.arch, modes, context } : Engine).Sound k modes where
  agrees := agrees_new session k.arch harray fun h => Bool.noConfusion (haligned.symm.trans h)
  arch := rfl
  modes := rfl
  reads reg hreg := .inr ⟨by simp, hreg.wordWidth⟩

theorem cell?_new (arch : Architecture) (modes : Modes) (context : Context) (place : Place) :
    ({ arch, modes, context } : Engine).symbolic.cell? place = none := by
  cases place <;> simp [cell?]

theorem Abreast.new (k : Comparison) (session : Session context given)
    (harray : k.left.isOn .memoryArray = false ∧ k.right.isOn .memoryArray = false)
    (haligned : k.left.isOn .alignedMemory = false ∧ k.right.isOn .alignedMemory = false) :
    ({ arch := k.arch, modes := k.left, context } : Engine).Abreast k (fun _ => False)
      { arch := k.arch, modes := k.right, context } where
  left := .new session harray.1 haligned.1
  right := .new session harray.2 haligned.2
  sites site _ _ v v' _ := by
    rw [meaning_free (cell?_new _ _ _ _), meaning_free (cell?_new _ _ _ _)]
  taint _ := rfl
  exact _ :=
    { vars := rfl
      tags := rfl
      cells := fun _ _ _ hcell _ => by rw [cell?_new] at hcell; cases hcell
      left := fun p hp => (Array.not_mem_empty p hp).elim
      right := fun p hp => (Array.not_mem_empty p hp).elim
      path := fun v v' _ => ⟨fun _ p hp => (Array.not_mem_empty p hp).elim,
        fun _ p hp => (Array.not_mem_empty p hp).elim⟩ }

end Engine

/-! Actions. -/

theorem Operand.Known.names (hk : k.tracked = false) {op : Operand}
    (h : op.Known) : k.Names op := by
  have hsource : ∀ {reg : Register}, reg.Known → k.Source reg := fun {reg} hreg => by
    unfold Source
    rw [hk]
    exact hreg
  cases op with
  | immediate imm => trivial
  | register reg => exact hsource h
  | memory access => exact ⟨fun reg hreg => hsource (h.1 reg hreg),
      fun reg hreg => hsource (h.2 reg hreg)⟩

/-- What an action answers when it does not fail. -/
inductive Answer where
  | done
  /-- The number of an expression. -/
  | expression (id : Nat)
  | processed (fault : Option Fault)
  | tainted (value : Bool)

namespace Action

def answer (e : Engine) : Action → Except Error Answer
  | process inst => (Step.answer (Step.process ⟨e, inst⟩)).map .processed
  | symbolizeRegister reg => (Exec.answer (Engine.symbolizeRegister reg e)).map .expression
  | symbolizeMemory access => (Exec.answer (Engine.symbolizeMemory access e)).map .expression
  | retaint change => (Exec.answer (Engine.retaint change e)).map .tainted
  | _ => .ok .done

/-- The actions that are compared: values are set and symbolized, taint is changed and
instructions are processed, which name registers of any architecture. A register that
is symbolized keeps the rest of its root. -/
def Compared (arch : Architecture) : Action → Prop
  | process inst => ∀ op ∈ inst.operands, op.Known
  | setRegister reg _ => arch.Has reg
  | symbolizeRegister reg => arch.Has reg ∧ (reg.isRoot = true ∨ reg.merge = .preserve)
  | setMemory _ _ | symbolizeMemory _ | retaint _ => True
  | _ => False

/-- Two engines process an instruction with one result, and control goes the same
way. -/
def SameProcess (inst : Instruction) (e e' : Engine) : Prop :=
  Step.answer (Step.process ⟨e, inst⟩) = Step.answer (Step.process ⟨e', inst⟩) ∧
    (Step.after (Step.process ⟨e, inst⟩)).instruction.control =
      (Step.after (Step.process ⟨e', inst⟩)).instruction.control

/-- Every action leaves engines abreast that were, and where they are compared exactly
it answers the same. -/
theorem apply_abreast (hk : k.tracked = false) (hshown : ∀ place, ¬ hidden place)
    (h : e.Abreast k hidden e') {action : Action} (hcompared : action.Compared k.arch) :
    (action.apply e).Abreast k hidden (action.apply e') ∧
      (k.exact = true → action.answer e = action.answer e') := by
  cases action with
  | process inst =>
    obtain ⟨hanswer, -, hafter⟩ := h.process hk hshown fun op hop => (hcompared op hop).names hk
    exact ⟨hafter, fun _ => congrArg (Except.map Answer.processed) hanswer⟩
  | setRegister reg value => exact ⟨h.setRegister hk hshown hcompared value, fun _ => rfl⟩
  | setMemory address bytes => exact ⟨.setMemory hshown bytes h address, fun _ => rfl⟩
  | symbolizeRegister reg =>
    obtain ⟨hafter, hanswer⟩ := h.symbolizeRegister hk hshown hcompared.1 hcompared.2
    exact ⟨hafter, fun hexact => congrArg (Except.map Answer.expression) (hanswer hexact)⟩
  | symbolizeMemory access =>
    obtain ⟨hafter, hanswer⟩ := h.symbolizeMemory hshown access
    exact ⟨hafter, fun hexact => congrArg (Except.map Answer.expression) (hanswer hexact)⟩
  | retaint change =>
    have htaint : k.tainted = true → change e.taint = change e'.taint :=
      fun htainted => congrArg change (h.taint htainted)
    refine ⟨h.retaint fun htainted => congrArg Prod.snd (htaint htainted), fun hexact => ?_⟩
    exact congrArg (fun r => (Except.ok r.1).map Answer.tainted) (htaint (k.exactly hexact))
  | concretizeRegister | concretizeByte | concretizeAccess | concretizeRegisters
  | concretizeMemory | concretizeAll | setMode => exact hcompared.elim

theorem run_abreast (hk : k.tracked = false) (hshown : ∀ place, ¬ hidden place) :
    ∀ (actions : List Action) {e e' : Engine}, e.Abreast k hidden e' →
      (∀ action ∈ actions, action.Compared k.arch) →
      (run e actions).Abreast k hidden (run e' actions)
  | [], _, _, h, _ => h
  | action :: rest, _, _, h, hcompared => by
    refine run_abreast hk hshown rest ?_ fun other hother => hcompared other (by simp [hother])
    exact (apply_abreast hk hshown h (hcompared action (by simp))).1

end Action

/-- A stack pointer that is symbolic and tainted, a push to where it points, an addition
to it from memory that is symbolic in part, and a jump back if the sum is zero. -/
def addThenJump : List Action :=
  [.setMemory 0x2000 [0xff, 0x7f],
    .symbolizeRegister x86_64.stackPointer,
    .symbolizeMemory (.fixed 0x2000 32),
    .retaint fun t => t.setOperand true (.register x86_64.stackPointer),
    .process (.decoded 0x1000 2 69 [.immediate ⟨7, 64⟩] "push 7"),
    .process (.decoded 0x1002 8 2
      [.register x86_64.stackPointer, .memory (.fixed 0x2000 64)]
      "add rsp, [0x2000]"),
    .process (.decoded 0x100a 2 45 [.immediate ⟨0x1000, 64⟩] "je 0x1000")]

theorem addThenJump_compared : ∀ action ∈ addThenJump, action.Compared .x86_64 := by
  have hsp := x86_64.stackPointer_has
  intro action haction
  simp only [addThenJump, List.mem_cons, List.not_mem_nil, or_false] at haction
  rcases haction with rfl | rfl | rfl | rfl | rfl | rfl | rfl
  · trivial
  · exact ⟨hsp, .inl (by decide +kernel)⟩
  · trivial
  · trivial
  · exact decoded_one trivial
  · refine decoded_two ⟨_, hsp⟩ ⟨fun reg h => ?_, fun reg h => ?_⟩
    · cases h
    · cases h
  · exact decoded_one trivial

/-! Execution. -/

/-- The engines have the same concrete registers and memory. -/
structure Engine.SameMachine (arch : Architecture) (e e' : Engine) : Prop where
  registers : ∀ reg, arch.Has reg → e.machine.register reg = e'.machine.register reg
  bytes : ∀ address, e.machine.byte address = e'.machine.byte address

/-- Settings without memory as an array and without whole writes execute the same: after
any of the actions the machines are the same, every instruction has one result, and
control goes the same way. Taint is the same where it spreads alike and undefined
registers are left alike. -/
theorem execution_unchanged {context : Context} {given : List Formula}
    (session : Session context given) (arch : Architecture) {modes modes' : Modes}
    (harray : modes.isOn .memoryArray = false ∧ modes'.isOn .memoryArray = false)
    (haligned : modes.isOn .alignedMemory = false ∧ modes'.isOn .alignedMemory = false)
    (actions : List Action) (hcompared : ∀ action ∈ actions, action.Compared arch) :
    ∀ done, done <+: actions →
      (Action.run { arch, modes, context } done).SameMachine arch
        (Action.run { arch, modes := modes', context } done) ∧
      (∀ inst, done ++ [.process inst] <+: actions →
        Action.SameProcess inst (Action.run { arch, modes, context } done)
          (Action.run { arch, modes := modes', context } done)) ∧
      (modes.isOn .concretizeUndefinedRegisters = modes'.isOn .concretizeUndefinedRegisters →
        modes.isOn .taintThroughPointers = modes'.isOn .taintThroughPointers →
        (Action.run { arch, modes, context } done).taint =
          (Action.run { arch, modes := modes', context } done).taint) := by
  intro done hdone
  -- taint is compared where the two settings agree on what it rests on
  let spread : Bool := decide
    (modes.isOn .concretizeUndefinedRegisters = modes'.isOn .concretizeUndefinedRegisters ∧
      modes.isOn .taintThroughPointers = modes'.isOn .taintThroughPointers)
  let k : Comparison := {
    arch, left := modes, right := modes', exact := false, tainted := spread, tracked := false
    shapes := fun h => by cases h
    pointers := fun h => (of_decide_eq_true h).2
    undefined := fun h => (of_decide_eq_true h).1
    exactly := fun h => by cases h
    tracks := fun h => by cases h }
  have hstart := Engine.Abreast.new k session harray haligned
  have habreast := Action.run_abreast rfl (fun _ => id) done hstart
    fun action haction => hcompared action (hdone.subset haction)
  refine ⟨⟨fun reg hreg => habreast.machine_register rfl (fun _ => id) hreg,
    fun address => habreast.byte_eq id⟩, fun inst hinst => ?_, fun hundefined hpointers => ?_⟩
  · have hknown := hcompared (.process inst) (hinst.subset (by simp))
    obtain ⟨hanswer, hcontrol, -⟩ := habreast.process rfl (fun _ => id)
      fun op hop => (hknown op hop).names rfl
    exact ⟨hanswer, hcontrol⟩
  · exact habreast.taint (decide_eq_true ⟨hundefined, hpointers⟩)

/-- With constants folded and only tainted expressions kept, all is executed as it is
under the initial setting. -/
theorem execution_unchanged_addThenJump :
    (∀ action ∈ addThenJump, action.Compared .x86_64) ∧
    ∀ done, done <+: addThenJump →
      (Action.run (.new .x86_64) done).SameMachine .x86_64
        (Action.run { arch := .x86_64, modes :=
          (Modes.allOff.set .constantFolding true).set .onlyOnTainted true } done) ∧
      (Action.run (.new .x86_64) done).taint =
        (Action.run { arch := .x86_64, modes :=
          (Modes.allOff.set .constantFolding true).set .onlyOnTainted true } done).taint := by
  refine ⟨addThenJump_compared, fun done hdone => ?_⟩
  obtain ⟨hmachine, -, htaint⟩ := @execution_unchanged _ _ .start .x86_64 .initial
    ((Modes.allOff.set .constantFolding true).set .onlyOnTainted true) ⟨rfl, rfl⟩ ⟨rfl, rfl⟩
    addThenJump addThenJump_compared done hdone
  exact ⟨hmachine, htaint rfl rfl⟩

/-! Formulas. -/

/-- Both engines answer a question for a formula, which leaves them as they are but for
the pool, and the formulas have one value under all values of the variables. -/
def Exec.SameValue (question : Exec Formula) (e e' : Engine) : Prop :=
  ∃ f f' pool pool', question e = .ok f (e.withPool pool) ∧
    question e' = .ok f' (e'.withPool pool') ∧
    ∀ v : Valuation, v.Fits e.scope → f.value v = f'.value v

/-- The engines have the same variables, and formulas of the same values. -/
structure Engine.SameFormulas (arch : Architecture) (e e' : Engine) : Prop where
  vars : e.vars = e'.vars
  registers : ∀ reg, arch.Has reg → SameValue (Engine.registerFormula reg) e e'
  memory : ∀ access : Access, 1 ≤ access.bytes → access.bytes ≤ 16 →
    SameValue (Engine.memoryFormula access) e e'
  path : SameValue Engine.pathPredicate e e'

namespace Engine.Abreast

variable (h : e.Abreast k hidden e') (hexact : k.exact = true)

include h hexact

theorem sameValue {x y : Build Formula} {f : Formula} (hf : Build.Answers e.modes.rules x (.ok f))
    (hmatch : Build.Matches e.modes.rules e'.modes.rules x y (Knows k e e' false))
    {question : Exec Formula} (hx : question e = build x e) (hy : question e' = build y e') :
    SameValue question e e' := by
  rcases hmatch with ⟨a, b, ha, hb, hab⟩ | ⟨error, herror, -⟩
  · obtain ⟨pool, hrun⟩ := run_build_ok ha
    obtain ⟨pool', hrun'⟩ := run_build_ok hb
    refine ⟨a, b, pool, pool', hx.trans hrun, hy.trans hrun', fun v hv => ?_⟩
    have hv' : v.Fits e'.scope := by
      unfold Context.scope
      rw [← (h.exact hexact).vars]
      exact hv
    rw [Formula.value_eq_eval, Formula.value_eq_eval]
    exact hab.eval_eq v v ⟨fun _ => rfl, hv, hv', .inr ⟨hexact, rfl⟩⟩
  · cases herror.unique hf

theorem pathPredicate :
    ∃ f, Build.Answers e.modes.rules (Path.predicate e.symbolic.constraints.toList) (.ok f) ∧
      Build.Matches e.modes.rules e'.modes.rules (Path.predicate e.symbolic.constraints.toList)
        (Path.predicate e'.symbolic.constraints.toList) (Knows k e e' false) := by
  obtain ⟨f, hf, htests⟩ := Path.answers_predicate e.modes.rules
    fun p hp => (h.exact hexact).left p (Array.mem_toList_iff.1 hp)
  obtain ⟨g, hg, htests'⟩ := Path.answers_predicate e'.modes.rules
    fun p hp => (h.exact hexact).right p (Array.mem_toList_iff.1 hp)
  refine ⟨f, hf, .inl ⟨f, g, hf, hg, htests.overVariables, htests'.overVariables,
    htests.width_eq.trans htests'.width_eq.symm, ?_⟩⟩
  rintro v v' ⟨-, hv, hv', hviews⟩
  refine htests.eval_eq htests' hv hv' ?_
  simp only [Array.mem_toList_iff]
  exact (h.exact hexact).path v v' ⟨hv, hv', hviews.imp_right (And.imp_left fun _ => trivial)⟩

theorem sameFormulas (hshown : ∀ place, ¬ hidden place) : e.SameFormulas k.arch e' := by
  have hk : k.tracked = true → False := fun htracked =>
    Bool.noConfusion (hexact.symm.trans (k.tracks htracked).1)
  refine ⟨(h.exact hexact).vars, fun reg hreg => ?_, fun access hpos hmax => ?_, ?_⟩
  · obtain ⟨f, hf, -⟩ := h.left.agrees.registerFormula (h.left.arch ▸ hreg) e.modes.rules
    have hsource := source_of_has hreg
    refine h.sameValue hexact hf (h.registerFormula hsource fun _ => ?_) rfl rfl
    exact ⟨⟨hsource, fun htracked => (hk htracked).elim⟩, hshown _⟩
  · -- whole writes are kept by neither engine
    have hkeep : ∀ {d : Engine}, d.Agrees False → d.modes.isOn .alignedMemory = false :=
      fun hd => Bool.eq_false_iff.2 hd.keeps
    obtain ⟨f, hf, -⟩ := h.left.agrees.memoryFormula e.modes.rules hpos hmax
    refine h.sameValue hexact hf ?_ rfl rfl
    rw [hkeep h.left.agrees, hkeep h.right.agrees]
    exact h.memoryFormula fun _ address _ => hshown _
  · obtain ⟨f, hf, hmatch⟩ := h.pathPredicate hexact
    exact h.sameValue hexact hf hmatch rfl rfl

end Engine.Abreast

/-- The shape of formulas changes nothing: under settings that differ in the folding of
constants, in the simplification of formulas and in what is kept of them, every action
answers the same, and after it the variables are the same, and so are the values of the
formulas of all registers, of memory and of the path, whatever the variables are. -/
theorem formulas_unchanged {context : Context} {given : List Formula}
    (session : Session context given) (arch : Architecture) {modes modes' : Modes}
    (hshapes : ∀ mode, mode ∉ [.constantFolding, .astOptimizations, .onlyOnSymbolized] →
      modes.isOn mode = modes'.isOn mode)
    (harray : modes.isOn .memoryArray = false) (haligned : modes.isOn .alignedMemory = false)
    (actions : List Action) (hcompared : ∀ action ∈ actions, action.Compared arch) :
    ∀ done, done <+: actions →
      (∀ action, done ++ [action] <+: actions →
        action.answer (Action.run { arch, modes, context } done) =
          action.answer (Action.run { arch, modes := modes', context } done)) ∧
      (Action.run { arch, modes, context } done).SameFormulas arch
        (Action.run { arch, modes := modes', context } done) := by
  intro done hdone
  let k : Comparison := {
    arch, left := modes, right := modes', exact := true, tainted := true, tracked := false
    shapes := fun _ => hshapes
    pointers := fun _ => hshapes _ (by decide)
    undefined := fun _ => hshapes _ (by decide)
    exactly := fun _ => rfl
    tracks := fun h => by cases h }
  have hstart := Engine.Abreast.new k session
    ⟨harray, (hshapes .memoryArray (by decide)).symm.trans harray⟩
    ⟨haligned, (hshapes .alignedMemory (by decide)).symm.trans haligned⟩
  have habreast := Action.run_abreast rfl (fun _ => id) done hstart
    fun action haction => hcompared action (hdone.subset haction)
  refine ⟨fun action haction => ?_, habreast.sameFormulas rfl fun _ => id⟩
  exact (Action.apply_abreast rfl (fun _ => id) habreast
    (hcompared action (haction.subset (by simp)))).2 rfl

/-- Formulas that are folded, simplified and kept only where they are symbolic have the
values of those that are built as they come. -/
theorem formulas_unchanged_addThenJump :
    (∀ action ∈ addThenJump, action.Compared .x86_64) ∧
    ∀ done, done <+: addThenJump →
      (Action.run { arch := .x86_64, modes := .allOff } done).SameFormulas .x86_64
        (Action.run { arch := .x86_64, modes := ((Modes.allOff.set .constantFolding true).set
          .astOptimizations true).set .onlyOnSymbolized true } done) := by
  refine ⟨addThenJump_compared, fun done hdone => ?_⟩
  refine (formulas_unchanged .start .x86_64 (fun mode hmode => ?_) rfl rfl addThenJump
    addThenJump_compared done hdone).2
  cases mode <;> first | rfl | exact absurd (by decide) hmode

/-! Memory as an array. A formula that reads the array reads the bytes that memory has when it
is evaluated. An instruction that adds to a byte in memory stores the sum before it evaluates
its flags, which see the new byte where the addition saw the old one. -/

/-- One is added to a byte that is then zero, and a jump is taken if it is. -/
def wrapThenJump : List Action :=
  [.setMemory 0x1000 [0xff],
    .process (.decoded 0x400000 3 2 [.memory (.fixed 0x1000 8), .immediate ⟨1, 8⟩]
      "add byte [0x1000], 1"),
    .process (.decoded 0x400003 2 45 [.immediate ⟨0x400100, 64⟩] "je 0x400100")]

/-- The same byte is written with memory as an array and without, but with the array the
zero flag stays clear, and control does not go to the target of the jump. -/
theorem array_misses_wrap :
    let on := Action.run
      { arch := .x86_64, modes := Modes.initial.set .memoryArray true } wrapThenJump
    let off := Action.run (.new .x86_64) wrapThenJump
    on.machine.byte 0x1000 = 0 ∧ off.machine.byte 0x1000 = 0 ∧
      on.machine.register Architecture.x86_64.programCounter = 0x400005 ∧
      off.machine.register Architecture.x86_64.programCounter = 0x400100 := by
  decide +kernel

end Concolic
