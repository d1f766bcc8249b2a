import Concolic.Proofs.Lockstep.Process
import Concolic.Proofs.Representation

/-
  The concrete and the symbolic state agree in every state that is reached.

  What can be done with an engine is an action: the processing of an
  instruction, whatever it answers, or one of the calls that set, symbolize,
  concretize or taint a place or switch a mode. Every action keeps the agreement
  of the two states, so that after any number of them every register and every
  access has a formula with its concrete value (`formulas_agree`).
-/

namespace Concolic

open Access (distance)
open Symbolic Machine Exec Engine

variable {sized : Prop} {access : Access} {e : Engine} {reg : Register}

namespace Engine.Agrees

/-! Values set from outside. -/

theorem setRegister (h : e.Agrees sized) (reg : Register) (value : Nat) :
    (e.setRegister reg value).Agrees sized := by
  have hextends : e.Extends (e.setRegister reg value) := ⟨.refl _, fun _ _ hf => hf⟩
  refine ⟨h.bounded, h.noArray, h.keeps, fun root hroot hisRoot => ?_, fun address => ?_, ?_⟩
  · have hid : root.parent = root.id := (beq_iff_eq.1 hisRoot).symm
    by_cases hparent : reg.parent = root.id
    · -- the root that is set is not bound any more
      intro id hbound
      simp [Engine.setRegister, concretizeRegister, hparent] at hbound
    · refine (h.registers root hroot hisRoot).kept hextends
        (fun id hbound => of_getElem?_erase hbound) ?_
      rw [register, register, hid]
      exact congrArg root.read ((root_setRegister _ _ _ _).trans (if_neg hparent))
  · exact (h.bytes address).kept hextends (fun _ hcell => hcell) rfl
  · intro hsized w hw
    exact (h.writes hsized w hw).kept hextends (value_congr fun _ _ => rfl)

theorem setByte (h : e.Agrees sized) (address : Address) (value : UInt8) :
    ({ e with
      machine := e.machine.setByte address value,
      symbolic := e.symbolic.concretizeByte address } : Engine).Agrees sized := by
  have hextends : e.Extends { e with
      machine := e.machine.setByte address value,
      symbolic := e.symbolic.concretizeByte address } := ⟨.refl _, fun _ _ hf => hf⟩
  refine ⟨h.bounded, h.noArray, h.keeps, fun root hroot hisRoot => ?_, fun other => ?_, ?_⟩
  · exact (h.registers root hroot hisRoot).kept hextends (fun _ hbound => hbound) rfl
  · by_cases heq : address = other
    · intro cell hcell
      simp [concretizeByte, dropAligned, heq] at hcell
    · refine (h.bytes other).kept hextends (fun cell hcell => of_getElem?_erase hcell) ?_
      rw [byte_setByte, if_neg heq]
  · intro hsized w hw
    have hold := h.writes hsized w (List.mem_filter.1 hw).1
    refine hold.kept hextends (value_congr fun other hin => ?_)
    have hne : address ≠ other := by
      rintro rfl
      have hout : ¬ distance address address < 1 := mem_dropAligned hold.1 hw hin
      rw [Access.distance_self] at hout
      omega
    rw [byte_setByte, if_neg hne]

theorem setMemory (h : e.Agrees sized) (address : Address) (bytes : List UInt8) :
    (e.setMemory address bytes).Agrees sized := by
  induction bytes generalizing e address with
  | nil => exact h
  | cons value rest ih =>
    have hstep := ih (h.setByte address value) (address + 1)
    unfold setMemory at hstep ⊢
    rw [List.length_cons, Access.addressesFrom_succ, List.foldl_cons, setBytes]
    exact hstep

/-! Modes and taint. -/

theorem setMode (h : e.Agrees sized) {mode : Mode} {enabled : Bool}
    (harray : mode = .memoryArray → enabled = false)
    (haligned : mode = .alignedMemory → enabled = true → sized) :
    ({ e with modes := e.modes.set mode enabled } : Engine).Agrees sized := by
  refine ⟨h.bounded, ?_, ?_, h.registers, h.bytes, h.writes⟩
  · show (if Mode.memoryArray = mode then enabled else e.modes.isOn .memoryArray) = false
    split
    · next heq => exact harray heq.symm
    · exact h.noArray
  · show (if Mode.alignedMemory = mode then enabled else e.modes.isOn .alignedMemory) = true → sized
    split
    · next heq => exact haligned heq.symm
    · exact h.keeps

end Engine.Agrees

/-! Symbolization. -/

/-- What an operation answers, or the error that it fails with. -/
def Exec.answer {α : Type} : EStateM.Result Error Engine α → Except Error α
  | .ok a _ => .ok a
  | .error e _ => .error e

/-- The engine that an operation leaves. -/
def Exec.after {α : Type} : EStateM.Result Error Engine α → Engine
  | .ok _ e => e
  | .error _ e => e

namespace Engine

/-- What the symbolization of a register does: its root is bound to the formula that a new
variable merges into. -/
theorem run_symbolizeRegister {root : Register} (hreg : e.arch.Has reg)
    (hroot : e.arch.register? reg.parent = some root) (hisRoot : root.isRoot = true) {g : Formula}
    (hg : Build.Answers e.modes.rules (e.symbolic.mergeRegister e.arch e.machine reg
      (.var e.vars.size reg.bits)) (.ok g)) (hwidth : g.width = root.bits) :
    ∃ pool, symbolizeRegister reg e = .ok e.symbolic.expressions.size
      ((e.addVariable reg.bits (some reg.name) (e.machine.register reg) pool).recorded g
        (.register root) "Register symbolization" none) := by
  obtain ⟨pool, hvar⟩ := Build.run_newVariable hreg.wordWidth (some reg.name)
    (e.machine.register reg) e.modes.rules e.context
  obtain ⟨pool', hbuild⟩ := run_build_ok
    (e := e.addVariable reg.bits (some reg.name) (e.machine.register reg) pool) hg
  refine ⟨pool', ?_⟩
  have hrun : symbolizeRegister reg e =
      (build (Build.newVariable reg.bits (some reg.name) (e.machine.register reg)) >>=
        fun v => mergeRegister reg v >>= fun merged => do
          let parent ← (← get).arch.register reg.parent
          create merged (.register parent) "Register symbolization" none) e := rfl
  have hmerged : mergeRegister reg (.var e.vars.size reg.bits)
      (e.addVariable reg.bits (some reg.name) (e.machine.register reg) pool) =
      .ok g (e.addVariable reg.bits (some reg.name) (e.machine.register reg) pool') := hbuild
  have hparent : ∀ d : Engine, (do
      let parent ← (← get).arch.register reg.parent
      create g (.register parent) "Register symbolization" none : Exec Nat) d =
      (ofExcept (d.arch.register reg.parent) >>= fun parent =>
        create g (.register parent) "Register symbolization" none : Exec Nat) d :=
    fun _ => rfl
  have hregister : e.arch.register reg.parent = .ok root := by
    rw [Architecture.register, hroot]
  have hcheck : checkOrigin g (.register root) = .ok () := by
    simp [checkOrigin, hisRoot, hwidth]
  rw [hrun, run_bind]
  simp only [build, hvar]
  rw [run_bind, hmerged]
  refine (hparent _).trans ?_
  rw [hregister]
  refine (run_create _ g (.register root) "Register symbolization" none).trans ?_
  rw [hcheck]

/-- In an engine that agrees with its machine, the root is bound to a formula that has its
value, unless its upper part is cleared. -/
theorem Agrees.run_symbolizeRegister (h : e.Agrees sized) (hreg : e.arch.Has reg)
    (hmerge : reg.isRoot = true ∨ reg.merge = .preserve) :
    ∃ pool root g, e.arch.register? reg.parent = some root ∧ root.isRoot = true ∧
      Build.Answers e.modes.rules (e.symbolic.mergeRegister e.arch e.machine reg
        (.var e.vars.size reg.bits)) (.ok g) ∧
      (e.context.addVariable reg.bits (some reg.name) (e.machine.register reg)).Gives g root.bits
        (e.machine.register root) ∧
      symbolizeRegister reg e = .ok e.symbolic.expressions.size
        ((e.addVariable reg.bits (some reg.name) (e.machine.register reg) pool).recorded g
          (.register root) "Register symbolization" none) := by
  have hw := hreg.wordWidth
  have h₁ := h.weaken (e.weakens_addVariable hw (some reg.name) (e.machine.register reg) e.pool)
  have hgives := e.context.gives_addVariable hw (e.machine.register_lt reg) (some reg.name) e.pool
  obtain ⟨root, g, hroot, hisRoot, hg, hgives'⟩ :=
    h₁.mergeRegister_self hreg hgives hmerge e.modes.rules
  obtain ⟨pool, hrun⟩ := Engine.run_symbolizeRegister hreg hroot hisRoot hg hgives'.width_eq
  exact ⟨pool, root, g, hroot, hisRoot, hg, hgives'.later fun _ _ h => h, hrun⟩

theorem symbolizeMemory_eq (access : Access) :
    symbolizeMemory access e =
      (build (Build.newVariable access.bits none (e.machine.accessValue access)) >>=
        fun v => do
          let id ← create v (.memory access) "Memory symbolization" none
          if e.modes.isOn .memoryArray then
            let index ← build (Build.constant access.address.toNat e.arch.addressWidth)
            arrayStore index v
          return id) e := rfl

/-- What the symbolization of memory does: a variable is made, unless none has the width,
and memory is bound to it, unless it is no whole number of bytes. -/
theorem run_symbolizeMemory (access : Access) (harray : e.modes.isOn .memoryArray = false) :
    ∃ pool, symbolizeMemory access e =
      if Formula.WordWidth access.bits then
        match checkOrigin (.var e.vars.size access.bits) (.memory access) with
        | .ok _ => .ok e.symbolic.expressions.size
          ((e.addVariable access.bits none (e.machine.accessValue access) pool).recorded
            (.var e.vars.size access.bits) (.memory access) "Memory symbolization" none)
        | .error error => .error error
          (e.addVariable access.bits none (e.machine.accessValue access) pool)
      else .error (.invalidWidth (.variableWidth access.bits)) (e.withPool pool) := by
  rw [symbolizeMemory_eq, run_bind]
  by_cases hw : Formula.WordWidth access.bits
  · obtain ⟨pool, hvar⟩ := Build.run_newVariable hw none (e.machine.accessValue access)
      e.modes.rules e.context
    refine ⟨pool, ?_⟩
    simp only [build, hvar, harray, run_bind, run_create, if_pos hw]
    cases checkOrigin (.var e.vars.size access.bits) (.memory access) <;> rfl
  · have hrefused := Build.newVariable_error hw none (e.machine.accessValue access) e.modes.rules
    obtain ⟨pool, hbuild⟩ := run_build hrefused
    exact ⟨pool, by rw [hbuild, if_neg hw]; rfl⟩

/-! What holds before a symbolization and is kept by its steps. -/

section

variable {kept : Engine → Prop} {nickname : Option String} {value : Nat}
  (hpool : ∀ {e : Engine} (pool : Pool), kept e → kept (e.withPool pool)) (h : kept e)

include hpool h

theorem newVariable_yields {width : Nat}
    (hadd : Formula.WordWidth width → ∀ pool, kept (e.addVariable width nickname value pool)) :
    Yields (fun f e' => kept e' ∧ f.Proper e'.scope True) kept
      (build (Build.newVariable width nickname value) e) := by
  by_cases hw : Formula.WordWidth width
  · obtain ⟨pool, hvar⟩ := Build.run_newVariable hw nickname value e.modes.rules e.context
    simp only [build, hvar]
    refine ⟨hadd hw pool, ?_, fun _ => rfl, fun _ => hw⟩
    exact Formula.Formed.stable.var hw (e.context.addVariable_scope _ _ _)
  · have hrefused := Build.newVariable_error hw nickname value e.modes.rules
    obtain ⟨pool, hbuild⟩ := run_build hrefused
    rw [hbuild]
    exact hpool pool h

theorem symbolizeMemory_yields (hadd : Formula.WordWidth access.bits →
      ∀ pool, kept (e.addVariable access.bits none (e.machine.accessValue access) pool))
    (hcreate : ∀ {e' : Engine} {f : Formula}, kept e' → f.Proper e'.scope True →
      Yields (fun _ e'' => kept e'' ∧ e''.context = e'.context) kept
        (create f (.memory access) "Memory symbolization" none e'))
    (hstore : ∀ {e' : Engine} {index f : Formula}, kept e' → index.Formed e'.scope →
      f.Formed e'.scope → Yields (fun _ => kept) kept (arrayStore index f e')) :
    Yields (fun _ => kept) kept (symbolizeMemory access e) := by
  rw [symbolizeMemory_eq]
  refine (newVariable_yields hpool h hadd).bind fun v e₁ hv => ?_
  refine (hcreate hv.1 hv.2).bind fun id e₂ hcreated => ?_
  obtain ⟨h₂, hcontext⟩ := hcreated
  have hf : v.Formed e₂.scope := hcontext ▸ hv.2.formed
  split
  -- the bytes of the variable also go into the array, at a constant index
  · have hindices : Build.Ensures e₂.modes.rules
        (Build.constant access.address.toNat e.arch.addressWidth)
        (Formula.Formed e₂.scope) :=
      Build.constant_kept (Formula.Formed.hereditary _) _ _
    obtain ⟨r, hr, hindex, -⟩ := hindices
    obtain ⟨pool, hbuild⟩ := run_build hr
    rw [run_bind, hbuild]
    cases r with
    | error error => exact hpool pool h₂
    | ok index =>
      exact (hstore (hpool pool h₂) (hindex index rfl) hf).bind fun _ _ h₃ => h₃
  · exact h₂

end

end Engine

theorem Yields.after {α : Type} {kept : Engine → Prop} {r : EStateM.Result Error Engine α}
    (h : Yields (fun _ => kept) kept r) : kept (after r) := by
  cases r <;> exact h

namespace Engine.Agrees

theorem symbolizeRegister (h : e.Agrees sized) (hreg : e.arch.Has reg)
    (hmerge : reg.isRoot = true ∨ reg.merge = .preserve) :
    (after (symbolizeRegister reg e)).Agrees sized ∧
      (after (symbolizeRegister reg e)).arch = e.arch := by
  have hw : Formula.WordWidth reg.bits := hreg.wordWidth
  obtain ⟨pool, root, g, hroot, hisRoot, -, hgives, hrun⟩ := h.run_symbolizeRegister hreg hmerge
  rw [hrun]
  refine ⟨(h.weaken (e.weakens_addVariable hw _ _ pool)).bindRegister
    (Architecture.has_of_register? hroot) hisRoot ?_ (fun _ _ => rfl) fun _ => rfl, rfl⟩
  exact hgives.later fun _ _ h => h

theorem bindAccess (h : e.Agrees sized) (hsize : sized → access.bytes ∈ alignedSizes)
    (hbits : access.bits % 8 = 0) (hmax : access.bytes ≤ maxBytes) {x : Expression}
    (hx : e.context.Gives x.formula access.bits (e.machine.accessValue access)) :
    (e.assign x (.memory access) e.machine).Agrees sized := by
  have hwidth : access.bits = access.bytes * 8 := by
    unfold Access.bytes
    omega
  rw [hwidth] at hx
  refine h.bindMemory hsize hmax hx rfl (fun address hin => ?_) (fun _ _ => rfl) fun _ => rfl
  exact e.machine.slice_accessValue hmax hin

omit e in
theorem accessValue_lt (hw : Formula.WordWidth access.bits) (machine : Machine) :
    access.bytes ≤ maxBytes ∧
      machine.accessValue access < Word.modulus access.bits := by
  have hlim : access.bits ≤ 128 := hw.2
  have hmax : access.bytes ≤ maxBytes := by
    unfold Access.bytes maxBytes
    omega
  have hle : 8 * access.bytes ≤ access.bits := by
    unfold Access.bytes
    omega
  refine ⟨hmax, ?_⟩
  rw [Word.modulus_eq hw.2]
  exact Nat.lt_of_lt_of_le (machine.value_lt access.address hmax)
    (Nat.pow_le_pow_right (by decide) hle)

theorem symbolizeMemory (h : e.Agrees sized)
    (hsize : sized → access.bits % 8 = 0 → access.bytes ∈ alignedSizes) :
    (after (symbolizeMemory access e)).Agrees sized ∧
      (after (symbolizeMemory access e)).arch = e.arch := by
  obtain ⟨pool, hrun⟩ := run_symbolizeMemory access h.noArray
  rw [hrun]
  split
  · next hw =>
    have h₁ := h.weaken (e.weakens_addVariable hw none (e.machine.accessValue access) pool)
    cases hcheck : checkOrigin (.var e.vars.size access.bits) (.memory access) with
    | error error => exact ⟨h₁, rfl⟩
    | ok _ =>
      obtain ⟨-, hbits⟩ := checkOrigin_memory hcheck
      obtain ⟨hmax, hlt⟩ := accessValue_lt hw e.machine
      have hgives := e.context.gives_addVariable hw hlt none pool
      exact ⟨h₁.bindAccess (fun hsized => hsize hsized hbits) hbits hmax hgives, rfl⟩
  · exact ⟨h.weaken (e.like_withPool pool).weakens, rfl⟩

theorem process (h : e.Agrees sized) {inst : Instruction}
    (hsuits : ∀ op ∈ inst.operands, op.Suits e.arch sized) :
    (Step.after (Step.process ⟨e, inst⟩)).engine.Agrees sized ∧
      (Step.after (Step.process ⟨e, inst⟩)).arch = e.arch := by
  have hended := h.executed hsuits
  have hweakens := Step.weakens_process ⟨e, inst⟩
  exact ⟨hended.twins.left.weaken hweakens, hweakens.arch.trans hended.arch⟩

end Engine.Agrees

/-! Actions. -/

/-- What can be done with an engine. -/
inductive Action where
  | process (inst : Instruction)
  | setRegister (reg : Register) (value : Nat)
  | setMemory (address : Address) (bytes : List UInt8)
  | symbolizeRegister (reg : Register)
  | symbolizeMemory (access : Access)
  | concretizeRegister (reg : Register)
  | concretizeByte (address : Address)
  | concretizeAccess (access : Access)
  | concretizeRegisters
  | concretizeMemory
  | concretizeAll
  /-- Any change of the taint. -/
  | retaint (change : Taint → Bool × Taint)
  | setMode (mode : Mode) (enabled : Bool)

namespace Action

/-- The engine after an action, whatever the action answers. -/
def apply (e : Engine) : Action → Engine
  | process inst => (Step.after (Step.process ⟨e, inst⟩)).engine
  | setRegister reg value => e.setRegister reg value
  | setMemory address bytes => e.setMemory address bytes
  | symbolizeRegister reg => after (Engine.symbolizeRegister reg e)
  | symbolizeMemory access => after (Engine.symbolizeMemory access e)
  | concretizeRegister reg => { e with symbolic := e.symbolic.concretizeRegister reg }
  | concretizeByte address => { e with symbolic := e.symbolic.concretizeByte address }
  | concretizeAccess access => { e with symbolic := e.symbolic.concretizeAccess access }
  | concretizeRegisters => { e with symbolic := e.symbolic.concretizeRegisters }
  | concretizeMemory => { e with symbolic := e.symbolic.concretizeMemory }
  | concretizeAll => { e with symbolic := e.symbolic.concretizeAll }
  | retaint change => after (Engine.retaint change e)
  | setMode mode enabled => { e with modes := e.modes.set mode enabled }

/-- The registers of the action are the architecture's, memory does not become an
array, a register that is symbolized keeps the rest of its root, and if `sized` then
accesses have the sizes that whole writes are kept for. -/
def Allowed (arch : Architecture) (sized : Prop) : Action → Prop
  | process inst => ∀ op ∈ inst.operands, op.Suits arch sized
  | symbolizeRegister reg => arch.Has reg ∧ (reg.isRoot = true ∨ reg.merge = .preserve)
  | symbolizeMemory access => sized → access.bits % 8 = 0 → access.bytes ∈ alignedSizes
  | setMode mode enabled => mode = .memoryArray → enabled = false
  | _ => True

/-- Every action keeps the agreement. -/
theorem apply_agrees (h : e.Agrees sized) {action : Action} (hallowed : action.Allowed e.arch sized)
    (haligned : action = .setMode .alignedMemory true → sized) :
    (action.apply e).Agrees sized ∧ (action.apply e).arch = e.arch := by
  cases action with
  | process inst => exact h.process hallowed
  | setRegister reg value => exact ⟨h.setRegister reg value, rfl⟩
  | setMemory address bytes => exact ⟨h.setMemory address bytes, rfl⟩
  | symbolizeRegister reg => exact h.symbolizeRegister hallowed.1 hallowed.2
  | symbolizeMemory access => exact h.symbolizeMemory hallowed
  | concretizeRegister reg =>
    exact ⟨h.weaken (e.symbolic.fewer_concretizeRegister reg).weakens, rfl⟩
  | concretizeByte address =>
    exact ⟨h.weaken (e.symbolic.fewer_concretizeByte address).weakens, rfl⟩
  | concretizeAccess access =>
    exact ⟨h.weaken (e.symbolic.fewer_concretizeAccess access).weakens, rfl⟩
  | concretizeRegisters => exact ⟨h.weaken e.symbolic.fewer_concretizeRegisters.weakens, rfl⟩
  | concretizeMemory => exact ⟨h.weaken e.symbolic.fewer_concretizeMemory.weakens, rfl⟩
  | concretizeAll => exact ⟨h.weaken e.symbolic.fewer_concretizeAll.weakens, rfl⟩
  | retaint change =>
    have hlike : e.Like { e with taint := (change e.taint).2 } :=
      ⟨rfl, rfl, rfl, rfl, rfl, rfl, rfl, rfl, rfl⟩
    exact ⟨h.weaken hlike.weakens, rfl⟩
  | setMode mode enabled =>
    refine ⟨h.setMode hallowed ?_, rfl⟩
    rintro rfl rfl
    exact haligned rfl

def run (e : Engine) (actions : List Action) : Engine := actions.foldl apply e

theorem run_agrees {sized : Prop} : ∀ (actions : List Action) {e : Engine}, e.Agrees sized →
    (∀ action ∈ actions, action.Allowed e.arch sized) →
    (.setMode .alignedMemory true ∈ actions → sized) →
    (run e actions).Agrees sized ∧ (run e actions).arch = e.arch
  | [], _, h, _, _ => ⟨h, rfl⟩
  | action :: rest, e, h, hallowed, haligned => by
    obtain ⟨hnext, harch⟩ := apply_agrees h (hallowed action (by simp))
      fun heq => haligned (by simp [heq])
    have hrest : ∀ other ∈ rest, other.Allowed (action.apply e).arch sized := by
      intro other hother
      rw [harch]
      exact hallowed other (by simp [hother])
    obtain ⟨hlast, harch'⟩ := run_agrees rest hnext hrest fun hmem => haligned (by simp [hmem])
    exact ⟨hlast, harch'.trans harch⟩

end Action

/-! The formulas. -/

/-- Every register and every access of 1 to 16 bytes can be asked for its formula,
which leaves the engine as it is but for the pool, and the formula has the concrete
value. -/
structure Engine.Described (e : Engine) : Prop where
  registers : ∀ reg, e.arch.Has reg → ∃ f pool,
    Engine.registerFormula reg e = .ok f { e with context := { e.context with pool } } ∧
      e.evaluate f = e.machine.register reg
  memory : ∀ access : Access, 1 ≤ access.bytes → access.bytes ≤ 16 → ∃ f pool,
    Engine.memoryFormula access e = .ok f { e with context := { e.context with pool } } ∧
      e.evaluate f = e.machine.accessValue access

theorem Engine.Agrees.described (h : e.Agrees sized) : e.Described := by
  constructor
  · intro reg hreg
    obtain ⟨f, hf, hgives⟩ := h.registerFormula hreg e.modes.rules
    obtain ⟨pool, hrun⟩ := run_build_ok hf
    exact ⟨f, pool, hrun, (evaluate_eq hgives.overVariables).trans hgives.value_eq⟩
  · intro access hpos hmax
    obtain ⟨f, hf, hgives⟩ := h.memoryFormula e.modes.rules hpos hmax
    obtain ⟨pool, hrun⟩ := run_build_ok hf
    exact ⟨f, pool, hrun, (evaluate_eq hgives.overVariables).trans hgives.value_eq⟩

/-- After every one of any actions on a new engine, over a context in use, every
register and access has a formula with its concrete value. -/
theorem formulas_agree {context : Context} {given : List Formula}
    (session : Session context given) (arch : Architecture) {modes : Modes}
    (harray : modes.isOn .memoryArray = false) (actions : List Action)
    (hallowed : ∀ action ∈ actions, action.Allowed arch
      (modes.isOn .alignedMemory = true ∨ .setMode .alignedMemory true ∈ actions)) :
    ∀ done, done <+: actions →
      (Action.run { arch, modes, context } done).arch = arch ∧
        (Action.run { arch, modes, context } done).Described := by
  intro done hdone
  have hnew : ({ arch, modes, context } : Engine).Agrees
      (modes.isOn .alignedMemory = true ∨ .setMode .alignedMemory true ∈ actions) :=
    Engine.agrees_new session arch harray .inl
  obtain ⟨hagrees, harch⟩ := Action.run_agrees done hnew
    (fun action hmem => hallowed action (hdone.subset hmem)) fun hmem => .inr (hdone.subset hmem)
  exact ⟨harch, hagrees.described⟩

/-- A register was loaded as from an array, with that mode off again. -/
def X86.loaded (reg : Register) (length : Nat) (bytes : List UInt8) : Engine :=
  Action.run (.new .x86_64)
    [.setMemory 0x1000 bytes, .setMode .memoryArray true,
      .process (.decoded 0x400000 length 59 [.register reg, .memory (.fixed 0x1000 reg.bits)] ""),
      .setMode .memoryArray false]

/-- A stack pointer that is symbolic, a push to where it points, and an addition to it
from memory that is symbolic in part. -/
def pushThenAdd : List Action :=
  [.setMode .alignedMemory true,
    .symbolizeRegister Architecture.x86_64.stackPointer,
    .process (.decoded 0x1000 2 69 [.immediate ⟨7, 64⟩] "push 7"),
    .symbolizeMemory (.fixed 0x2000 32),
    .setMode .onlyOnSymbolized true,
    .process (.decoded 0x1002 8 2
      [.register Architecture.x86_64.stackPointer, .memory (.fixed 0x2000 64)]
      "add rsp, [0x2000]"),
    .concretizeMemory]

theorem formulas_agree_pushThenAdd :
    (∀ action ∈ pushThenAdd, action.Allowed .x86_64
      (Modes.initial.isOn .alignedMemory = true ∨ .setMode .alignedMemory true ∈ pushThenAdd)) ∧
    ∀ done, done <+: pushThenAdd →
      (Action.run (.new .x86_64) done).arch = .x86_64 ∧
        (Action.run (.new .x86_64) done).Described := by
  have hsp := Architecture.x86_64.stackPointer_has
  refine (and_iff_left_of_imp (formulas_agree .start .x86_64 rfl pushThenAdd)).2
    fun action haction => ?_
  simp only [pushThenAdd, List.mem_cons, List.not_mem_nil, or_false] at haction
  rcases haction with rfl | rfl | rfl | rfl | rfl | rfl | rfl
  · exact fun h => by cases h
  · exact ⟨hsp, .inl (by decide +kernel)⟩
  · exact Instruction.decoded_one trivial
  · exact fun _ _ => by decide
  · exact fun h => by cases h
  · refine Instruction.decoded_two hsp ⟨fun reg h => ?_, fun reg h => ?_, fun _ _ => by decide⟩
    · cases h
    · cases h
  · trivial

end Concolic
