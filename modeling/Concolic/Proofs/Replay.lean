import Concolic.Proofs.Reachable

/-
  What the formulas of one run say of another.

  Two engines that differ in the values of their variables only (`Twins`) process
  the same instructions. As long as these take the same way in both
  (`SameWay`), the runs record the same formulas and bind them alike. So the
  formulas of the first run, under the variables of the second, have the values
  of the second (`replay`), and the conditions that the first run recorded tell
  which way the second went.
-/

namespace Concolic

open Architecture Step Engine Concolic.Frame X86

variable {d d' e e' : Engine} {sized : Prop} {value : Formula → Nat}

namespace Engine

/-- The engine after an instruction, whatever its result. -/
def processed (e : Engine) (inst : Instruction) : Engine := (after (process ⟨e, inst⟩)).engine

/-- The instruction has one result in both engines, and takes the same way as far as it
is decided by values. -/
structure SameWay (e e' : Engine) (inst : Instruction) : Prop where
  result : answer (process ⟨e, inst⟩) = answer (process ⟨e', inst⟩)
  way : (Frame.start ⟨e, inst⟩).SameWay (Frame.start ⟨e', inst⟩)

def SameWays : Engine → Engine → List Instruction → Prop
  | _, _, [] => True
  | e, e', inst :: rest => e.SameWay e' inst ∧ SameWays (e.processed inst) (e'.processed inst) rest

/-- Two runs from `e` and `e'` came to `d` and `d'` by the same way. -/
structure Follows (sized : Prop) (e e' d d' : Engine) : Prop where
  twins : d.Twins sized d'
  arch : d.arch = e.arch
  modes : d.modes = e.modes
  left : e.context.Later d.context
  right : e'.context.Later d'.context
  path : ∃ new new' : List PathConstraint,
    d.symbolic.constraints.toList = e.symbolic.constraints.toList ++ new ∧
      d'.symbolic.constraints.toList = e'.symbolic.constraints.toList ++ new' ∧
      List.Forall₂ (PathConstraint.Matches d d') new new'

end Engine

theorem PathConstraint.Matches.later {p p' : PathConstraint} (h : Matches e e' p p')
    (hscope : e.scope = e'.scope) (hl : e.context.Later d.context)
    (hr : e'.context.Later d'.context) : Matches d d' p p' := by
  intro b hb
  obtain ⟨hover, hiff⟩ := h b hb
  refine ⟨⟨hover.wellFormed.mono hl.scope, hover.memoryless⟩, ?_⟩
  rw [hr.evaluate (hscope ▸ hover)]
  exact hiff

namespace Engine.Follows

variable {sized : Prop} {e e' d d' c c' : Engine}

theorem refl (h : e.Twins sized e') : Follows sized e e' e e' :=
  ⟨h, rfl, rfl, .refl _, .refl _, [], [], by simp, by simp, .nil⟩

theorem trans (h₁ : Follows sized e e' d d') (h₂ : Follows sized d d' c c') :
    Follows sized e e' c c' := by
  obtain ⟨new₁, new₁', hl₁, hr₁, hpath₁⟩ := h₁.path
  obtain ⟨new₂, new₂', hl₂, hr₂, hpath₂⟩ := h₂.path
  refine ⟨h₂.twins, h₂.arch.trans h₁.arch, h₂.modes.trans h₁.modes, h₁.left.trans h₂.left,
    h₁.right.trans h₂.right, new₁ ++ new₂, new₁' ++ new₂', ?_, ?_, ?_⟩
  · rw [hl₂, hl₁, List.append_assoc]
  · rw [hr₂, hr₁, List.append_assoc]
  · refine List.rel_append (hpath₁.imp fun p p' hp => ?_) hpath₂
    exact hp.later h₁.twins.scope_eq h₂.left h₂.right

end Engine.Follows

theorem Engine.Twins.processed (h : e.Twins sized e') (hkeeps : ∀ x, keeps e.modes x = true)
    {inst : Instruction} (hsuits : ∀ op ∈ inst.operands, op.Suits e.arch sized)
    (hway : e.SameWay e' inst) : Follows sized e e' (e.processed inst) (e'.processed inst) := by
  -- each run by itself is done when the instruction is executed
  have hdone : ∀ d : Engine, d.Agrees sized → d.arch = e.arch → d.modes = e.modes →
      answer (process ⟨d, inst⟩) = answer (execute (Frame.start ⟨d, inst⟩)) ∧
        d.processed inst = (after (execute (Frame.start ⟨d, inst⟩))).engine := by
    intro d hd harch hmodes
    have hd' : ∀ op ∈ inst.operands, op.Suits d.arch sized := by
      rw [harch]
      exact hsuits
    have hended := hd.executed hd'
    refine process_eq hended.leftListed fun x => ?_
    rw [hended.modes]
    show keeps d.modes x = true
    rw [hmodes]
    exact hkeeps x
  obtain ⟨hanswer, hafter⟩ := hdone e h.left rfl rfl
  obtain ⟨hanswer', hafter'⟩ := hdone e' h.right h.arch.symm h.modes.symm
  have hended := Twin.execute (h.start hsuits) hway.way (by rw [← hanswer, ← hanswer', hway.result])
  rw [hafter, hafter']
  refine ⟨hended.twins, hended.arch, hended.modes, hended.left, hended.right, ?_⟩
  rcases hended.path with ⟨hl, hr⟩ | ⟨p, p', hl, hr, hmatches, -⟩
  · exact ⟨[], [], by rw [hl]; simp [Frame.start], by rw [hr]; simp [Frame.start], .nil⟩
  · refine ⟨[p], [p'], ?_, ?_, .cons hmatches .nil⟩
    · rw [hl, Array.toList_push]
      rfl
    · rw [hr, Array.toList_push]
      rfl

/-- Instructions that take the same way lead from twins to twins. -/
theorem Engine.Twins.follows : ∀ (insts : List Instruction) {e e' : Engine},
    e.Twins sized e' → (∀ x, keeps e.modes x = true) →
    (∀ inst ∈ insts, ∀ op ∈ inst.operands, op.Suits e.arch sized) → e.SameWays e' insts →
    Follows sized e e' (insts.foldl Engine.processed e) (insts.foldl Engine.processed e')
  | [], _, _, h, _, _, _ => .refl h
  | inst :: rest, e, e', h, hkeeps, hsuits, hways => by
    have hfirst := h.processed hkeeps (hsuits inst (by simp)) hways.1
    refine hfirst.trans (follows rest hfirst.twins ?_ ?_ hways.2)
    · rw [hfirst.modes]
      exact hkeeps
    · rw [hfirst.arch]
      exact fun other hother => hsuits other (by simp [hother])

/-- What the run from `e` to `d` says of the run from `e'` to `d'`: both have the same
expressions up to taint, and the same bindings; the formula of every register and
access of the first has under the variables of the second the value there; and of the
decisions that were recorded on the way, a condition of the first run's holds under
the variables of the second exactly if the second run went that way. -/
structure Engine.Foretells (e e' d d' : Engine) : Prop where
  expressions : d.symbolic.expressions.map Expression.untainted =
    d'.symbolic.expressions.map Expression.untainted
  registers : d.symbolic.registers = d'.symbolic.registers
  memory : d.symbolic.memory = d'.symbolic.memory
  registerValues : ∀ reg, e.arch.Has reg → ∃ f pool,
    Engine.registerFormula reg d = .ok f { d with context := { d.context with pool } } ∧
      d'.evaluate f = d'.machine.register reg
  memoryValues : ∀ access : Access, 1 ≤ access.bytes → access.bytes ≤ 16 → ∃ f pool,
    Engine.memoryFormula access d = .ok f { d with context := { d.context with pool } } ∧
      d'.evaluate f = d'.machine.accessValue access
  path : ∃ new new' : List PathConstraint,
    d.symbolic.constraints.toList = e.symbolic.constraints.toList ++ new ∧
      d'.symbolic.constraints.toList = e'.symbolic.constraints.toList ++ new' ∧
      List.Forall₂ (fun p p' => ∀ b ∈ p.branches, d'.evaluate b.constraint = 1 ↔
        ∃ b' ∈ p'.branches, b'.taken = true ∧ b'.target = b.target) new new'

theorem Engine.Follows.foretells (h : Follows sized e e' d d') : e.Foretells e' d d' where
  expressions := h.twins.expressions
  registers := h.twins.registers
  memory := h.twins.memory
  registerValues reg hreg := by
    obtain ⟨f, hf, -, hgives⟩ := h.twins.registerFormula (h.arch ▸ hreg) d.modes.rules
    obtain ⟨pool, hrun⟩ := run_build_ok hf
    exact ⟨f, pool, hrun, (evaluate_eq hgives.overVariables).trans hgives.value_eq⟩
  memoryValues access hpos hmax := by
    obtain ⟨f, hf, -, hgives⟩ := h.twins.memoryFormula d.modes.rules hpos hmax
    obtain ⟨pool, hrun⟩ := run_build_ok hf
    exact ⟨f, pool, hrun, (evaluate_eq hgives.overVariables).trans hgives.value_eq⟩
  path := by
    obtain ⟨new, new', hl, hr, hpath⟩ := h.path
    refine ⟨new, new', hl, hr, hpath.imp fun p p' hp b hb => ?_⟩
    obtain ⟨hover, hiff⟩ := hp b hb
    rw [evaluate_eq (h.twins.scope_eq ▸ hover)]
    exact hiff

/-- The formulas of one run of some instructions are right for every other run of them
from a state that differs in the values of the variables, as long as it takes the same
way. -/
theorem replay {e e' : Engine} (h : e.Twins False e')
    (hsymbolized : e.modes.isOn .onlyOnSymbolized = false)
    (htainted : e.modes.isOn .onlyOnTainted = false) (insts : List Instruction)
    (hsuits : ∀ inst ∈ insts, ∀ op ∈ inst.operands, op.Suits e.arch False)
    (hways : e.SameWays e' insts) :
    e.Foretells e' (insts.foldl Engine.processed e) (insts.foldl Engine.processed e') := by
  have hkeeps : ∀ x, Step.keeps e.modes x = true := by
    intro x
    simp [Step.keeps, hsymbolized, htainted]
  exact (h.follows insts hkeeps hsuits hways).foretells

/-- An operation that looks at no value but the addresses of its operands. -/
theorem Frame.SameWay.plain {s t : Frame} {op : Op}
    (hop : operation? s.instruction.opcode = some op) (hstack : op.usesStack = false)
    (hcount : op.rotates = false)
    (haddresses : s.resolved.instruction.operands = t.resolved.instruction.operands) :
    s.SameWay t := by
  have honly : ∀ other, s.At other → other = op := by
    intro other hother
    exact Option.some.inj (hother.2.symm.trans hop)
  refine ⟨fun _ => haddresses, fun other hother huses => ?_, fun other hother hrotates => ?_⟩
  · rw [honly other hother, hstack] at huses
    cases huses
  · rw [honly other hother, hcount] at hrotates
    cases hrotates

def symbolicStack (value : Nat) : Engine :=
  let e : Engine :=
    { arch := .x86_64, modes := .initial, context := ({} : Context).addVariable 64 none value }
  let sp := e.arch.stackPointer
  e.assign
    { id := 0, formula := .var 0 64, origin := .register sp, comment := "", address := none }
    (.register sp) (e.machine.setRegister sp (e.context.evaluate (.var 0 64)))

theorem symbolicStack_twins (value value' : Nat) :
    (symbolicStack value).Twins False (symbolicStack value') := by
  have hnew : (Engine.new .x86_64).Agrees False := by
    refine agrees_new .start .x86_64 rfl fun h => ?_
    cases h
  have hw : Formula.WordWidth 64 := ⟨by decide, by decide⟩
  have hvar := hnew.twins.addVariable hw none value value' {} {}
  have hover : (Formula.var 0 64).OverVariables (({} : Context).addVariable 64 none value).scope :=
    ⟨⟨hw, ({} : Context).addVariable_scope 64 none value⟩, trivial⟩
  have hbits : 64 = x86_64.stackPointer.bits := by decide +kernel
  have hroot : x86_64.stackPointer.isRoot = true := by decide +kernel
  exact hvar.writeRegister x86_64.stackPointer_has hroot hover hbits

/-- An addition to the stack pointer, and a branch on whether the sum is zero. -/
def addThenBranch : List Instruction :=
  [.decoded 0x1000 4 2 [.register x86_64.stackPointer, .immediate ⟨8, 64⟩] "add rsp, 8",
    .decoded 0x1004 2 45 [.immediate ⟨0x1010, 64⟩] "je 0x1010"]

/-- The branch goes one way from 5 and the other way from `2 ^ 64 - 8`. -/
theorem replay_addThenBranch :
    (symbolicStack 5).SameWays (symbolicStack (2 ^ 64 - 8)) addThenBranch ∧
      (symbolicStack 5).Foretells (symbolicStack (2 ^ 64 - 8))
        (addThenBranch.foldl Engine.processed (symbolicStack 5))
        (addThenBranch.foldl Engine.processed (symbolicStack (2 ^ 64 - 8))) := by
  have hadd : X86.operation? 2 = some .add := by decide +kernel
  have hbranch : X86.operation? 45 = some (.jumpIf { test := .equal }) := by decide +kernel
  refine (and_iff_left_of_imp (replay (symbolicStack_twins _ _) rfl rfl addThenBranch ?_)).2
    ⟨⟨by decide +kernel, .plain hadd rfl rfl (by decide +kernel)⟩,
      ⟨by decide +kernel, .plain hbranch rfl rfl (by decide +kernel)⟩, trivial⟩
  intro inst hinst
  simp only [addThenBranch, List.mem_cons, List.not_mem_nil, or_false] at hinst
  rcases hinst with rfl | rfl
  · exact Instruction.decoded_two Architecture.x86_64.stackPointer_has trivial
  · exact Instruction.decoded_one trivial

/-! Formulas that read memory as an array are out of the scope of `Twins`. -/

/-- Every bound root register and byte has the value of its formula, as `value` says. -/
structure Engine.HasValues (e : Engine) (value : Formula → Nat) : Prop where
  registers : ∀ reg id f, e.arch.Has reg → reg.isRoot = true →
    e.symbolic.registers[reg.id]? = some id → e.symbolic.formula? id = some f →
    value f = e.machine.register reg
  bytes : ∀ address cell f, e.symbolic.memory[address]? = some cell →
    e.symbolic.formula? cell.expression = some f →
    Word.slice (cell.byte * 8 + 7) (cell.byte * 8) (value f) = (e.machine.byte address).toNat

/-- The same for the registers alone, as a test, where no byte is bound. -/
theorem Engine.HasValues.of_all (hmemory : e.symbolic.memory.isEmpty = true)
    (h : (e.symbolic.registers.toList.all fun p =>
      match e.arch.register? p.1, e.symbolic.formula? p.2 with
      | some reg, some f => value f == e.machine.register reg
      | _, _ => true) = true) : e.HasValues value := by
  constructor
  · intro reg id f hreg _ hid hf
    have hmem : (reg.id, id) ∈ e.symbolic.registers.toList :=
      Std.ExtTreeMap.mem_toList_iff_getElem?_eq_some.2 hid
    have hreg : e.arch.register? reg.id = some reg := hreg
    have hvalue := List.all_eq_true.1 h _ hmem
    simp only [hreg, hf] at hvalue
    exact beq_iff_eq.1 hvalue
  · intro address cell f hcell
    rw [Std.ExtTreeMap.isEmpty_iff.1 hmemory] at hcell
    simp at hcell

def arrayRead : Engine := X86.loaded Architecture.x86_64.stackPointer 8 []

def storeThenCopy : List Instruction :=
  [.decoded 0x400008 8 59 [.memory (.fixed 0x1000 64), .immediate ⟨5, 64⟩] "",
    .decoded 0x400010 3 59 [.register X86.accumulator, .register x86_64.stackPointer] ""]

/-- The register has a formula whose value is not the register's. -/
theorem Engine.exists_formula_ne {reg : Register} (h : (match registerFormula reg e with
      | .ok f _ => value f != e.machine.register reg
      | .error _ _ => false) = true) :
    ∃ f d, registerFormula reg e = .ok f d ∧ value f ≠ e.machine.register reg := by
  cases hrun : registerFormula reg e with
  | ok f d =>
    rw [hrun] at h
    exact ⟨f, d, rfl, bne_iff_ne.1 h⟩
  | error error d =>
    rw [hrun] at h
    cases h

/-- Where a formula reads memory as an array, its value changes with memory, and a run
is not even foretold by itself: neither by the values over the concrete memory nor by
those of the variables alone. -/
theorem array_read_not_foretold :
    (∀ mode ∈ [Mode.memoryArray, .alignedMemory, .onlyOnSymbolized, .onlyOnTainted],
      arrayRead.modes.isOn mode = false) ∧
    arrayRead.HasValues arrayRead.evaluate ∧ arrayRead.HasValues arrayRead.context.evaluate ∧
    arrayRead.SameWays arrayRead storeThenCopy ∧
    (∃ reg f d, Engine.registerFormula reg (storeThenCopy.foldl Engine.processed arrayRead) =
        .ok f d ∧
      (storeThenCopy.foldl Engine.processed arrayRead).evaluate f ≠
        (storeThenCopy.foldl Engine.processed arrayRead).machine.register reg) ∧
    ∃ reg f d, Engine.registerFormula reg (storeThenCopy.foldl Engine.processed arrayRead) =
        .ok f d ∧
      (storeThenCopy.foldl Engine.processed arrayRead).context.evaluate f ≠
        (storeThenCopy.foldl Engine.processed arrayRead).machine.register reg := by
  have hself : ∀ (e : Engine) (inst : Instruction), e.SameWay e inst := fun _ _ =>
    ⟨rfl, fun _ => rfl, fun _ _ _ => rfl, fun _ _ _ _ => rfl⟩
  refine ⟨by decide +kernel, .of_all (by decide +kernel) (by decide +kernel),
    .of_all (by decide +kernel) (by decide +kernel), ⟨hself _ _, hself _ _, trivial⟩, ?_, ?_⟩
  · exact ⟨Architecture.x86_64.stackPointer, Engine.exists_formula_ne (by decide +kernel)⟩
  · exact ⟨X86.accumulator, Engine.exists_formula_ne (by decide +kernel)⟩

end Concolic
