import Concolic.Proofs.Meaning

/-
  Two engines that differ in values only.

  Twins have the same expressions up to taint, the same bindings, the same
  variables up to their values, and equal values of what is bound to nothing;
  and each agrees with itself. They build the formula of a register or of memory
  by the same construction, and changes of one kind made to both leave them
  twins.
-/

namespace Concolic

open Symbolic Machine Architecture Expression Engine

variable {sized : Prop} {e e' : Engine} {x : Expression} {reg : Register} {access : Access}

namespace Engine

/-- The two engines differ in the values of their variables and of what is bound to
expressions, in taint, and in the decisions recorded. -/
structure Twins (sized : Prop) (e e' : Engine) : Prop where
  left : e.Agrees sized
  right : e'.Agrees sized
  arch : e.arch = e'.arch
  modes : e.modes = e'.modes
  widths : e.vars.map Variable.width = e'.vars.map Variable.width
  expressions : e.symbolic.expressions.map Expression.untainted =
    e'.symbolic.expressions.map Expression.untainted
  registers : e.symbolic.registers = e'.symbolic.registers
  memory : e.symbolic.memory = e'.symbolic.memory
  aligned : e.symbolic.aligned = e'.symbolic.aligned
  roots : ∀ reg, e.arch.Has reg → reg.isRoot = true → e.symbolic.registers[reg.id]? = none →
    e.machine.register reg = e'.machine.register reg
  bytes : ∀ address, e.symbolic.memory[address]? = none →
    e.machine.byte address = e'.machine.byte address

theorem Agrees.twins (h : e.Agrees sized) : e.Twins sized e where
  left := h
  right := h
  arch := rfl
  modes := rfl
  widths := rfl
  expressions := rfl
  registers := rfl
  memory := rfl
  aligned := rfl
  roots _ _ _ _ := rfl
  bytes _ _ := rfl

namespace Twins

section

variable (h : e.Twins sized e')

include h

theorem size_eq : e.symbolic.expressions.size = e'.symbolic.expressions.size := by
  simpa using congrArg Array.size h.expressions

theorem vars_size_eq : e.vars.size = e'.vars.size := by
  simpa using congrArg Array.size h.widths

theorem scope_eq : e.scope = e'.scope := by
  funext id
  have hid := congrArg (fun widths => widths[id]?) h.widths
  simpa [Context.scope] using hid

theorem expression_eq (id : Nat) :
    e.symbolic.expressions[id]?.map untainted = e'.symbolic.expressions[id]?.map untainted := by
  have hid := congrArg (fun table => table[id]?) h.expressions
  simpa using hid

theorem formula?_eq (id : Nat) : e.symbolic.formula? id = e'.symbolic.formula? id := by
  have hid := congrArg (Option.map formula) (h.expression_eq id)
  rw [Option.map_map, Option.map_map] at hid
  exact hid

/-! The same constructions. -/

theorem expression_bind (id : Nat) (k : Formula → Build Formula) :
    (do
      let x ← ofExcept (e.symbolic.expression id)
      k x.formula : Build Formula) =
    (do
      let x ← ofExcept (e'.symbolic.expression id)
      k x.formula) := by
  have hid := h.formula?_eq id
  simp only [formula?] at hid
  unfold expression
  cases hx : e.symbolic.expressions[id]? <;> cases hx' : e'.symbolic.expressions[id]? <;>
    simp only [hx, hx', Option.map_none, Option.map_some, reduceCtorEq, Option.some.injEq] at hid
  · rfl
  · show k _ = k _
    rw [hid]

theorem registerFormula_eq (hreg : e.arch.Has reg) :
    e.symbolic.registerFormula e.machine reg = e'.symbolic.registerFormula e'.machine reg := by
  obtain ⟨root, hroot, hisRoot, hbits⟩ := hreg.root
  have hid : root.id = reg.parent := register?_id hroot
  unfold Symbolic.registerFormula registerBinding?
  rw [← h.registers]
  cases hbound : e.symbolic.registers[reg.parent]? with
  | none =>
    have hvalue := h.roots root (has_of_register? hroot) hisRoot (hid ▸ hbound)
    simp only [Option.bind_eq_bind, Option.bind_none]
    rw [register_eq_slice hreg hroot hisRoot hbits,
      register_eq_slice hreg hroot hisRoot hbits, hvalue]
  | some id =>
    have hformula := h.formula?_eq id
    obtain ⟨f, hf, -⟩ := h.left.registers root (has_of_register? hroot) hisRoot id (hid ▸ hbound)
    obtain ⟨x, hx, hxf⟩ := expression_of_formula? hf
    obtain ⟨x', hx', hxf'⟩ := expression_of_formula? (hformula ▸ hf)
    simp only [Option.bind_eq_bind, Option.bind_some, hx, hx', hxf, hxf']

theorem mergeRegister_eq (hreg : e.arch.Has reg) (value : Formula) :
    e.symbolic.mergeRegister e.arch e.machine reg value =
      e'.symbolic.mergeRegister e'.arch e'.machine reg value := by
  obtain ⟨root, hroot, -, -⟩ := hreg.root
  unfold Symbolic.mergeRegister
  rw [← h.arch]
  simp only [Architecture.register, hroot]
  have hread := h.registerFormula_eq (has_of_register? hroot)
  split
  · rfl
  split
  · rfl
  split
  · rfl
  · show (e.symbolic.registerFormula e.machine root >>= _) =
      (e'.symbolic.registerFormula e'.machine root >>= _)
    rw [hread]

theorem byteFormula_eq : e.symbolic.byteFormula e.machine = e'.symbolic.byteFormula e'.machine := by
  funext address
  unfold byteFormula
  rw [← h.memory]
  cases hcell : e.symbolic.memory[address]? with
  | none => simp only [h.bytes address hcell]
  | some cell => exact h.expression_bind cell.expression _

theorem memoryFormula_eq (keep : Bool) (access : Access) :
    e.symbolic.memoryFormula keep e.machine access =
      e'.symbolic.memoryFormula keep e'.machine access := by
  have haligned : e.symbolic.aligned? access.address access.bytes =
      e'.symbolic.aligned? access.address access.bytes := by
    simp only [aligned?, h.aligned]
  unfold Symbolic.memoryFormula
  rw [h.byteFormula_eq, haligned]
  split
  · rfl
  split
  · exact h.expression_bind _ _
  · rfl

/-- The formula of a register has in either engine the register's value there. -/
theorem registerFormula (hreg : e.arch.Has reg) (rules : Rules) :
    ∃ f, Build.Answers rules (e.symbolic.registerFormula e.machine reg) (.ok f) ∧
      e.context.Gives f reg.bits (e.machine.register reg) ∧
      e'.context.Gives f reg.bits (e'.machine.register reg) := by
  obtain ⟨f, hf, hgives⟩ := h.left.registerFormula hreg rules
  obtain ⟨f', hf', hgives'⟩ := h.right.registerFormula (h.arch ▸ hreg) rules
  rw [← h.registerFormula_eq hreg] at hf'
  obtain rfl : f = f' := Except.ok.inj (hf.unique hf')
  exact ⟨f, hf, hgives, hgives'⟩

/-- The formula of an access has in either engine the value of memory there. -/
theorem memoryFormula (rules : Rules) (hpos : 1 ≤ access.bytes) (hmax : access.bytes ≤ maxBytes) :
    ∃ f, Build.Answers rules
        (e.symbolic.memoryFormula (e.modes.isOn .alignedMemory) e.machine access) (.ok f) ∧
      e.context.Gives f (access.bytes * 8) (e.machine.accessValue access) ∧
      e'.context.Gives f (access.bytes * 8) (e'.machine.accessValue access) := by
  obtain ⟨f, hf, hgives⟩ := h.left.memoryFormula rules hpos hmax
  obtain ⟨f', hf', hgives'⟩ := h.right.memoryFormula rules hpos hmax
  rw [← h.modes, ← h.memoryFormula_eq] at hf'
  obtain rfl : f = f' := Except.ok.inj (hf.unique hf')
  exact ⟨f, hf, hgives, hgives'⟩

/-! Changes made to both. -/

/-- An expression is entered in both and bound to one origin. -/
theorem assign {origin : Origin} {m m' : Machine} (hl : (e.assign x origin m).Agrees sized)
    (hr : (e'.assign x origin m').Agrees sized)
    (hm : ∀ place, ¬ origin.Covers place → m.valueAt place = e.machine.valueAt place)
    (hm' : ∀ place, ¬ origin.Covers place → m'.valueAt place = e'.machine.valueAt place) :
    (e.assign x origin m).Twins sized (e'.assign x origin m') := by
  have hcongr : (e.assign x origin m).symbolic.registers =
        (e'.assign x origin m').symbolic.registers ∧
      (e.assign x origin m).symbolic.memory = (e'.assign x origin m').symbolic.memory ∧
      (e.assign x origin m).symbolic.aligned = (e'.assign x origin m').symbolic.aligned := by
    simp only [Engine.assign, ← h.modes, ← h.size_eq]
    cases origin with
    | register reg =>
      exact ⟨congrArg (·.insert reg.id e.symbolic.expressions.size) h.registers, h.memory,
        h.aligned⟩
    | memory access =>
      simp only [bindOrigin, registers_bindMemory]
      refine ⟨h.registers, ?_, ?_⟩
      · simp only [bindMemory, enter, h.memory]
        split <;> rfl
      · simp only [bindMemory, enter, h.aligned]
        split <;> rfl
    | volatile => exact ⟨h.registers, h.memory, h.aligned⟩
  refine {
    left := hl
    right := hr
    __ := h
    expressions := by simp only [expressions_assign, Array.map_push, h.expressions]
    registers := hcongr.1
    memory := hcongr.2.1
    aligned := hcongr.2.2
    roots := fun reg hreg hisRoot hunbound => ?_
    bytes := fun address hunbound => ?_ }
  -- what is bound to nothing is not what was written
  · have hid : reg.id = reg.parent := beq_iff_eq.1 hisRoot
    obtain ⟨hout, hfree⟩ := e.cell?_assign_eq_none x m (.root reg.id)
      (Option.map_eq_none_iff.2 hunbound)
    have hbefore := h.roots reg hreg hisRoot (Option.map_eq_none_iff.1 hfree)
    rw [hid] at hout
    exact (congrArg reg.read (hm _ hout)).trans (hbefore.trans (congrArg reg.read (hm' _ hout)).symm)
  · obtain ⟨hout, hfree⟩ := e.cell?_assign_eq_none x m (.byte address) hunbound
    refine UInt8.toNat_inj.1 ((hm _ hout).trans (Eq.trans ?_ (hm' _ hout).symm))
    exact congrArg UInt8.toNat (h.bytes address hfree)

theorem writeRegister {root : Register} (hroot : e.arch.Has root) (hisRoot : root.isRoot = true)
    (hx : x.formula.OverVariables e.scope) (hwidth : x.formula.width = root.bits) :
    (e.assignRoot x root).Twins sized (e'.assignRoot x root) :=
  h.assign (h.left.writeRegister hroot hisRoot hx hwidth)
    (h.right.writeRegister (h.arch ▸ hroot) hisRoot (h.scope_eq ▸ hx) hwidth)
    (fun _ => valueAt_setRegister hisRoot _) fun _ => valueAt_setRegister hisRoot _

theorem writeMemory (hsize : sized → access.bytes ∈ alignedSizes)
    (hx : x.formula.OverVariables e.scope) (hwidth : x.formula.width = access.bytes * 8) :
    (e.assignAccess x access).Twins sized (e'.assignAccess x access) :=
  h.assign (h.left.writeMemory hsize hx hwidth) (h.right.writeMemory hsize (h.scope_eq ▸ hx) hwidth)
    (fun _ => valueAt_setValue _) fun _ => valueAt_setValue _

theorem enter (x : Expression) :
    (e.assign x .volatile e.machine).Twins sized (e'.assign x .volatile e'.machine) :=
  h.assign (h.left.enter x) (h.right.enter x) (fun _ _ => rfl) fun _ _ => rfl

end

end Twins

theorem Twins.like {d d' : Engine} (h : e.Twins sized e') (hl : e.Like d)
    (hr : e'.Like d') : d.Twins sized d' where
  left := h.left.weaken hl.weakens
  right := h.right.weaken hr.weakens
  arch := by rw [hl.arch, hr.arch, h.arch]
  modes := by rw [hl.modes, hr.modes, h.modes]
  widths := by rw [hl.vars, hr.vars, h.widths]
  expressions := by rw [hl.expressions, hr.expressions, h.expressions]
  registers := by rw [hl.registers, hr.registers, h.registers]
  memory := by rw [hl.memory, hr.memory, h.memory]
  aligned := by rw [hl.aligned, hr.aligned, h.aligned]
  roots := by rw [hl.arch, hl.registers, hl.machine, hr.machine]; exact h.roots
  bytes := by rw [hl.memory, hl.machine, hr.machine]; exact h.bytes

section

variable {id : Nat} {change : Expression → Expression} {symbolic symbolic' : Symbolic}

theorem Twins.update (h : e.Twins sized e') (hs : Updates id change e.symbolic symbolic)
    (ht : Updates id change e'.symbolic symbolic') (hformula : ∀ x, (change x).formula = x.formula)
    (hchange : ∀ x y, x.untainted = y.untainted → (change x).untainted = (change y).untainted) :
    ({ e with symbolic } : Engine).Twins sized { e' with symbolic := symbolic' } where
  left := h.left.update hs hformula
  right := h.right.update ht hformula
  __ := h
  expressions := hs.map_eq ht hchange h.expressions
  registers := by rw [hs.registers, ht.registers, h.registers]
  memory := by rw [hs.memory, ht.memory, h.memory]
  aligned := by rw [hs.aligned, ht.aligned, h.aligned]
  roots := by rw [hs.registers]; exact h.roots
  bytes := by rw [hs.memory]; exact h.bytes

end

theorem Twins.decide (h : e.Twins sized e') (path path' : Array PathConstraint) :
    ({ e with symbolic := { e.symbolic with constraints := path } } : Engine).Twins sized
      { e' with symbolic := { e'.symbolic with constraints := path' } } := by
  have hweakens : ∀ (d : Engine) (path : Array PathConstraint),
      d.Weakens { d with symbolic := { d.symbolic with constraints := path } } := fun d path =>
    ⟨⟨.refl _, fun _ _ hf => hf⟩, fun hb => hb, rfl, rfl, rfl, fun _ _ hb => hb,
      fun _ _ hb => hb, fun _ hw => hw⟩
  exact {
    left := h.left.weaken (hweakens e path)
    right := h.right.weaken (hweakens e' path')
    __ := h }

theorem Twins.addVariable (h : e.Twins sized e') {width : Nat} (hw : Formula.WordWidth width)
    (nickname : Option String) (value value' : Nat) (pool pool' : Pool) :
    (e.addVariable width nickname value pool).Twins sized
      (e'.addVariable width nickname value' pool') := by
  exact {
    left := h.left.weaken (e.weakens_addVariable hw nickname value pool)
    right := h.right.weaken (e'.weakens_addVariable hw nickname value' pool')
    __ := h
    widths := by simp only [Context.addVariable, Array.map_push, h.widths] }

end Engine

end Concolic
