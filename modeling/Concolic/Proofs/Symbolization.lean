import Concolic.Proofs.DoubleWidth
import Concolic.Proofs.SetMemory

/-
  The symbolization of registers.

  A register that is symbolized gets a new variable for its value, and its root is bound
  to the formula that the variable merges into. So whatever value the variable is given,
  every register has the value that it would have after a write of that value, while the
  machine stays as it is (`symbolization_writes_variable`).

  The variable starts with the value of the register, so what the formulas show at first
  is the machine after the register was written back to itself. That is the machine
  itself, unless the write clears the rest of the root and the root has something there
  (`Machine.register_writeBack_iff`).
-/

namespace Concolic

open Word Architecture X86 Engine Register Symbolic Machine Concolic.Action

/-! Registers that are written back to themselves. -/

section

variable {arch : Architecture} {reg root : Register}

/-- A register that is written along with the rest of its root leaves nothing above it. -/
theorem Architecture.Has.write_read (hreg : arch.Has reg)
    (hwhole : reg.isRoot = true ∨ reg.merge = .zeroExtend) (parent : Nat) :
    reg.write parent (reg.read parent) = truncate reg.bits parent := by
  have hread : reg.read parent = truncate reg.bits parent := by
    rw [Register.read, hreg.low_eq_zero hwhole, Nat.shiftRight_zero]
  have hlt := truncate_lt reg.bits parent
  unfold write
  rw [hread, truncate_of_lt hlt]
  rcases hwhole with hroot | hmerge
  · rw [if_pos hroot]
  · rw [hmerge, ite_self]

/-- The root reads as before if the rest of it is kept, or if there is nothing above the
register. -/
theorem Architecture.Has.read_write_read_iff (hreg : arch.Has reg)
    (hroot : arch.register? reg.parent = some root) (parent : Nat) :
    root.read (reg.write parent (reg.read parent)) = root.read parent ↔
      reg.isRoot = true ∨ reg.merge = .preserve ∨ root.read parent < modulus reg.bits := by
  obtain ⟨hisRoot, hbits⟩ := hreg.isRoot_and_bits hroot
  have hrootHas := has_of_register? hroot
  have hlim : reg.bits ≤ limit := le_trans hreg.wordBits.2 (by decide)
  have hrootLim : root.bits ≤ limit := le_trans hrootHas.wordBits.2 (by decide)
  have hle : reg.bits ≤ root.bits := by
    have hbound := hreg.bound
    omega
  have hread : ∀ value, root.read value = truncate root.bits value := by
    intro value
    rw [Register.read, (hrootHas.whole hisRoot).1, Nat.shiftRight_zero]
  by_cases hwhole : reg.isRoot = true ∨ reg.merge = .zeroExtend
  · have hwritten : root.read (reg.write parent (reg.read parent)) = truncate reg.bits parent := by
      rw [hreg.write_read hwhole, hread, truncate_of_lt
        (lt_of_lt_of_le (truncate_lt _ _) (modulus_mono hle))]
    rw [hwritten]
    constructor
    · intro hsame
      exact .inr (.inr (hsame ▸ truncate_lt _ _))
    · intro hkept
      have hsmall : root.read parent < modulus reg.bits := by
        rcases hkept with hself | hmerge | hsmall
        · obtain rfl := hreg.root_eq_self hroot hself
          exact truncate_lt _ _
        · rcases hwhole with hself | hmerge'
          · obtain rfl := hreg.root_eq_self hroot hself
            exact truncate_lt _ _
          · rw [hmerge] at hmerge'
            cases hmerge'
        · exact hsmall
      rw [hread] at hsmall ⊢
      rw [← truncate_of_lt hsmall]
      apply Nat.eq_of_testBit_eq
      intro i
      rw [testBit_truncate hlim, testBit_truncate hlim, testBit_truncate hrootLim]
      by_cases hi : i < reg.bits
      · simp [show i < root.bits by omega]
      · simp [hi]
  · obtain ⟨hself, hmerge⟩ := not_or.1 hwhole
    have hpart : reg.isRoot = false := Bool.eq_false_iff.2 hself
    have hpreserve : reg.merge = .preserve := by
      cases hcase : reg.merge with
      | zeroExtend => exact absurd hcase hmerge
      | preserve => rfl
    refine iff_of_true (congrArg root.read ?_) (.inr (.inl hpreserve))
    exact Nat.eq_of_testBit_eq fun i => testBit_write_read hpart hpreserve hlim parent i

/-- A register that is written back to itself changes no register, unless it clears the
rest of its root and the root has something there. -/
theorem Machine.register_writeBack_iff (hreg : arch.Has reg)
    (hroot : arch.register? reg.parent = some root) (m : Machine) :
    (∀ other, arch.Has other →
      (m.setRegister reg (m.register reg)).register other = m.register other) ↔
      reg.isRoot = true ∨ reg.merge = .preserve ∨ m.register root < modulus reg.bits := by
  have hisRoot := (hreg.isRoot_and_bits hroot).1
  have hparent := parent_root hroot hisRoot
  have hsame : ∀ other : Register, other.parent = reg.parent →
      (m.setRegister reg (m.register reg)).register other =
        other.read (reg.write (m.root reg.parent) (reg.read (m.root reg.parent))) := by
    intro other hother
    rw [register, root_setRegister, if_pos hother.symm, register]
  rw [show m.register root = root.read (m.root reg.parent) by rw [register, hparent],
    ← hreg.read_write_read_iff hroot]
  constructor
  · intro hall
    rw [← hsame root hparent, hall root (has_of_register? hroot), register, hparent]
  · intro hread other hother
    by_cases hin : reg.parent = other.parent
    · rw [hsame other hin.symm, hother.read_congr (hin ▸ hroot) hread, register, hin]
    · exact register_setRegister_of_ne hin m _

end

/-! What the formulas of registers show. -/

def Valuation.give (v : Valuation) (id value : Nat) : Valuation :=
  { v with var := fun i => if i = id then value else v.var i }

/-- The formula of every register has the value of the register. -/
def Engine.RegistersMatch (e : Engine) : Prop :=
  ∀ reg, e.arch.Has reg → ∃ f pool, Engine.registerFormula reg e = .ok f (e.withPool pool) ∧
    e.evaluate f = e.machine.register reg

section

variable {V : View} {e : Engine} {reg : Register}

theorem View.Watches.showsRegisters (h : V.Watches e) (hmatch : e.RegistersMatch) :
    V.ShowsRegisters e.arch e.symbolic e.machine := by
  intro reg hreg hroot id hid
  obtain ⟨f, value, hf, hgives⟩ := h.registers reg hreg hroot id hid
  obtain ⟨x, hx, rfl⟩ := expression_of_formula? hf
  have hbinding : e.symbolic.registerBinding? reg = some x := by
    rw [registerBinding?, ← beq_iff_eq.1 hroot, hid]
    exact hx
  have hbuild : e.symbolic.registerFormula e.machine reg = pure x.formula := by
    simp only [Symbolic.registerFormula, hbinding, if_pos hroot]
  have hanswer : registerFormula reg e =
      Exec.build (e.symbolic.registerFormula e.machine reg) e := rfl
  obtain ⟨f, pool, hrun, hvalue⟩ := hmatch reg hreg
  obtain ⟨pool', hrun'⟩ := run_build_ok (e := e)
    (hbuild ▸ (Build.Answers.pure x.formula : Build.Answers e.modes.rules _ _))
  rw [hanswer, hrun'] at hrun
  obtain ⟨rfl, -⟩ := EStateM.Result.ok.inj hrun
  rw [h.evaluate hgives] at hvalue
  exact ⟨x.formula, hf, hvalue ▸ hgives⟩

theorem View.ShowsRegisters.widen {V' : View} {arch : Architecture} {s : Symbolic} {m : Machine}
    (h : V.ShowsRegisters arch s m) (hV : V.Widens V') : V'.ShowsRegisters arch s m := by
  intro reg hreg hroot id hid
  obtain ⟨f, hf, hgives⟩ := h reg hreg hroot id hid
  exact ⟨f, hf, hV.gives hgives⟩

/-- The symbolization of a register leaves the machine, and whatever value its variable is
given, the roots are bound to what they are after a write of that value. -/
theorem View.Watches.symbolizeRegister (h : V.Watches e) (hmatch : e.RegistersMatch)
    (hreg : e.arch.Has reg) :
    ∃ e', symbolizeRegister reg e = .ok e.symbolic.expressions.size e' ∧
      e'.arch = e.arch ∧ e'.machine = e.machine ∧
      e'.valuation = e.valuation.give e.vars.size (e.machine.register reg) ∧
      (∀ other : Register, e'.symbolic.registers[other.parent]? = none →
        reg.parent ≠ other.parent) ∧
      ∀ {x : Nat} (hx : x < modulus reg.bits),
        (V.declare e.vars.size reg.bits hx).ShowsRegisters e.arch e'.symbolic
          (e.machine.setRegister reg x) := by
  obtain ⟨root, hroot, hisRoot, -⟩ := hreg.root
  have hrootHas := has_of_register? hroot
  have hid : root.id = reg.parent := register?_id hroot
  have hparent := parent_root hroot hisRoot
  have hwider : ∀ {x : Nat} (hx : x < modulus reg.bits),
      (V.declare e.vars.size reg.bits hx).ShowsRegisters e.arch e.symbolic e.machine :=
    fun hx => (h.showsRegisters hmatch).widen (widens_fresh h.scope_eq)
  have hmerged : ∀ {x : Nat} (hx : x < modulus reg.bits),
      (V.declare e.vars.size reg.bits hx).Forms e.modes.rules
        (e.symbolic.mergeRegister e.arch e.machine reg (.var e.vars.size reg.bits))
        root.bits ((e.machine.setRegister reg x).register root) := fun hx =>
    .mergeRegister hreg hroot ((hwider hx).registerFormula hrootHas fun _ => rfl)
      (gives_declare hreg.wordWidth)
  have hown := e.machine.register_lt reg
  obtain ⟨g, hg, hgives⟩ := (hmerged hown).answers trivial
  obtain ⟨pool, hrun⟩ := run_symbolizeRegister hreg hroot hisRoot hg hgives.width_eq
  refine ⟨_, hrun, rfl, rfl, ?_, ?_, fun {x} hx => ?_⟩
  · obtain ⟨u, hu, hvaluation⟩ : (V.declare e.vars.size reg.bits hown).admits _ :=
      admits_fresh h.admits (some reg.name) pool
    rw [h.only hu] at hvaluation
    exact hvaluation
  · intro other hfree hsame
    have hbound : (e.symbolic.registers.insert root.id e.symbolic.expressions.size)[
        other.parent]? = none := hfree
    rw [← hsame, ← hid, Std.ExtTreeMap.getElem?_insert_self] at hbound
    cases hbound
  · -- the formula was built with no regard to the value of the variable
    obtain ⟨g', hg', hgives'⟩ := (hmerged hx).answers trivial
    obtain rfl := Except.ok.inj (hg.unique hg')
    exact ShowsRegisters.bind (e := e.addVariable reg.bits (some reg.name)
      (e.machine.register reg) pool) (hwider hx) hrootHas hisRoot hgives'
      (fun other hne => register_setRegister_of_ne (hparent ▸ hne) _ _) e.machine

end

/-- In an engine whose roots are bound to words of their widths, as they are in every one
that actions lead to, and in which the formula of every register has the value of the
register, the symbolization of a register succeeds and leaves the machine. For every value
of the new variable, the formula of every register has the value that the register would
have after a write of it; so at first it has the value after the register is written back
to itself. This is the value in the machine, for every register, if and only if the
register that is symbolized is a root, keeps the rest of its root when it is written, or
has nothing above it in its root. -/
theorem symbolization_writes_variable {V : View} {e : Engine} (hwatches : V.Watches e)
    (hmatch : e.RegistersMatch) {reg root : Register} (hreg : e.arch.Has reg)
    (hroot : e.arch.register? reg.parent = some root) :
    ∃ id e', Engine.symbolizeRegister reg e = .ok id e' ∧ e'.arch = e.arch ∧
      e'.machine = e.machine ∧
      e'.valuation = e.valuation.give e.vars.size (e.machine.register reg) ∧
      (∀ other, e.arch.Has other → ∃ f pool,
        Engine.registerFormula other e' = .ok f (e'.withPool pool) ∧
        (∀ x, x < Word.modulus reg.bits → f.eval (e.valuation.give e.vars.size x) =
          (e.machine.setRegister reg x).register other) ∧
        e'.evaluate f = (e.machine.setRegister reg (e.machine.register reg)).register other) ∧
      (e'.RegistersMatch ↔ reg.isRoot = true ∨ reg.merge = .preserve ∨
        e.machine.register root < Word.modulus reg.bits) := by
  obtain ⟨e', hrun, harch, hmachine, hvaluation, hfree, hshows⟩ :=
    hwatches.symbolizeRegister hmatch hreg
  have hforms : ∀ {other}, e.arch.Has other → ∀ {x : Nat} (hx : x < Word.modulus reg.bits),
      (V.declare e.vars.size reg.bits hx).Forms e'.modes.rules
        (e'.symbolic.registerFormula e'.machine other) other.bits
        ((e.machine.setRegister reg x).register other) := by
    intro other hother x hx
    refine (hshows hx).registerFormula hother fun hnone => ?_
    rw [hmachine, Machine.register_setRegister_of_ne (hfree other hnone)]
  refine ⟨_, e', hrun, harch, hmachine, hvaluation, (and_iff_left_of_imp fun hformulas => ?_).2 ?_⟩
  · rw [← Machine.register_writeBack_iff hreg hroot]
    constructor
    · intro hmatch' other hother
      obtain ⟨f, pool, hbuild, -, hvalue⟩ := hformulas other hother
      obtain ⟨f', pool', hbuild', hvalue'⟩ := hmatch' other (harch.symm ▸ hother)
      rw [hbuild] at hbuild'
      obtain ⟨rfl, -⟩ := EStateM.Result.ok.inj hbuild'
      rw [← hvalue, hvalue', hmachine]
    · intro hkept other hother
      obtain ⟨f, pool, hbuild, -, hvalue⟩ := hformulas other (harch ▸ hother)
      exact ⟨f, pool, hbuild, by rw [hvalue, hkept other (harch ▸ hother), hmachine]⟩
  · intro other hother
    have hown := e.machine.register_lt reg
    obtain ⟨f, hf, -⟩ := (hforms hother hown).answers trivial
    obtain ⟨pool, hbuild⟩ := Engine.run_build_ok hf
    have heval : ∀ x, x < Word.modulus reg.bits →
        f.eval (e.valuation.give e.vars.size x) = (e.machine.setRegister reg x).register other := by
      intro x hx
      obtain ⟨f', hf', hgives⟩ := (hforms hother hx).answers trivial
      obtain rfl := Except.ok.inj (hf.unique hf')
      exact hgives.eval_eq ⟨e.valuation, hwatches.admits, rfl⟩
    refine ⟨f, pool, hbuild, heval, ?_⟩
    rw [Engine.evaluate, Formula.value_eq_eval, hvaluation]
    exact heval _ hown

/-! Parts of the accumulator. -/

def X86.accumulatorHalf : Register := x86_64.numbered X86.eax

/-- The bytes of the accumulator differ, and parts of it are symbolized. -/
def X86.symbolizedParts (parts : List Register) : Engine :=
  Action.run (.new .x86_64)
    (.setRegister X86.accumulator 0x1122334455667788 :: parts.map .symbolizeRegister)

theorem X86.symbolizedParts_watched (parts : List Register) :
    ∃ V : View, V.Watches (symbolizedParts parts) := by
  refine (run_watches .start .x86_64 .initial fun action haction => ?_).2
  rcases List.mem_cons.1 haction with rfl | haction
  · trivial
  · obtain ⟨reg, -, rfl⟩ := List.mem_map.1 haction
    trivial

/-- The formulas match as long as the parts keep the rest of the accumulator. -/
theorem X86.symbolizedParts_match {parts : List Register} (hparts : ∀ reg ∈ parts, x86_64.Has reg ∧
      (reg.isRoot = true ∨ reg.merge = .preserve)) : (symbolizedParts parts).RegistersMatch := by
  have hagrees := run_agrees
    (.setRegister accumulator 0x1122334455667788 :: parts.map .symbolizeRegister)
    (agrees_new .start .x86_64 (rfl : Modes.initial.isOn .memoryArray = false)
      (by decide : Modes.initial.isOn .alignedMemory = true → False))
    (fun action haction => ?_) (by simp)
  · exact hagrees.1.described.registers
  · rcases List.mem_cons.1 haction with rfl | haction
    · trivial
    · obtain ⟨reg, hreg, rfl⟩ := List.mem_map.1 haction
      exact hparts reg hreg

/-- The second byte of an accumulator that is a variable keeps the rest of it. -/
theorem symbolization_writes_variable_upperByte :
    (X86.symbolizedParts [X86.accumulator]).RegistersMatch ∧
    ∃ id e', Engine.symbolizeRegister X86.upperByte (X86.symbolizedParts [X86.accumulator]) =
        .ok id e' ∧ e'.RegistersMatch := by
  have hmatch : (X86.symbolizedParts [X86.accumulator]).RegistersMatch :=
    X86.symbolizedParts_match (by unfold Has; decide +kernel)
  have harch : (X86.symbolizedParts [X86.accumulator]).arch = .x86_64 := by decide +kernel
  have hroot : Architecture.x86_64.register? X86.upperByte.parent = some X86.accumulator := by
    decide +kernel
  obtain ⟨V, hwatches⟩ := X86.symbolizedParts_watched [X86.accumulator]
  obtain ⟨id, e', hrun, -, -, -, -, hiff⟩ := symbolization_writes_variable hwatches hmatch
    (harch.symm ▸ X86.holds_bytes.high) (harch.symm ▸ hroot)
  exact ⟨hmatch, id, e', hrun, hiff.2 (.inr (.inl (by decide +kernel)))⟩

/-- The lower half of the accumulator clears the upper half in the formula of the
accumulator, though not in the machine. -/
theorem symbolization_clears_upper_half :
    (X86.symbolizedParts []).RegistersMatch ∧
    (X86.symbolizedParts [X86.accumulatorHalf]).machine.register X86.accumulator =
      0x1122334455667788 ∧
    (Exec.answer (Engine.registerFormula X86.accumulator
      (X86.symbolizedParts [X86.accumulatorHalf]))).toOption.map
        (X86.symbolizedParts [X86.accumulatorHalf]).evaluate = some 0x55667788 := by
  exact ⟨X86.symbolizedParts_match (by simp), by decide +kernel, by decide +kernel⟩

end Concolic
