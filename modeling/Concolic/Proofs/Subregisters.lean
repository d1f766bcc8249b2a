import Concolic.Proofs.Symbolization

/-
  Writes to parts of registers.

  A write to a register changes its root, and it is done in two ways: the machine masks
  the bits of the root (`Register.write`), and the formula of the root is cut and put
  together again (`Symbolic.mergeRegister`). Both have the same bits
  (`mergeRegister_writes`): those of the value where the register is, and elsewhere those
  that the root had, or none.
-/

namespace Concolic

open Word Architecture Register X86 Engine Machine

section

variable {arch : Architecture} {reg root other : Register} {i : Nat}

/-- The bits of a root after a write to a part of it. -/
theorem Architecture.Has.testBit_write (h : arch.Has reg) (hi : i < reg.parentBits)
    (parent value : Nat) :
    (reg.write parent value).testBit i =
      if reg.low ≤ i ∧ i < reg.low + reg.bits then value.testBit (i - reg.low)
      else reg.merge = .preserve && parent.testBit i := by
  have hlim : reg.bits ≤ limit := h.wordWidth.2
  cases hself : reg.isRoot with
  | true =>
    obtain ⟨hlow, hbits⟩ := h.whole hself
    simp [write, hself, testBit_truncate hlim, hlow, show i < reg.bits by omega]
  | false =>
    cases hmerge : reg.merge with
    | preserve => simp [Register.testBit_write hself hmerge hlim]
    | zeroExtend =>
      have hlow := h.low_eq_zero (.inr hmerge)
      simp [write, hmerge, testBit_truncate hlim, hlow]

/-- A write to a part of a root leaves the root within its width. -/
theorem Architecture.Has.write_lt (h : arch.Has reg) {parent : Nat}
    (hparent : parent < modulus reg.parentBits) (value : Nat) :
    reg.write parent value < modulus reg.parentBits := by
  have hlim : reg.bits ≤ limit := h.wordWidth.2
  have hbound := h.bound
  have hvalue : truncate reg.bits value < modulus reg.parentBits :=
    lt_of_lt_of_le (truncate_lt _ _) (modulus_mono (by omega))
  cases hself : reg.isRoot with
  | true => simpa [write, hself] using hvalue
  | false =>
    cases hmerge : reg.merge with
    | zeroExtend => simpa [write, hmerge] using hvalue
    | preserve =>
      have hparentLim : reg.parentBits ≤ limit := le_trans h.parentBits_le (by decide)
      rw [modulus_eq hparentLim]
      refine Nat.lt_pow_two_of_testBit _ fun i hi => ?_
      rw [Register.testBit_write hself hmerge hlim, if_neg (by omega)]
      exact testBit_of_lt hparentLim hparent hi

/-- A root reads as what was written to the part of it. -/
theorem Machine.root_write (hreg : arch.Has reg) (hroot : arch.register? reg.parent = some root)
    (m : Machine) (value : Nat) :
    (m.setRegister reg value).register root = reg.write (m.register root) value := by
  obtain ⟨hisRoot, hbits⟩ := hreg.isRoot_and_bits hroot
  have hrootHas := has_of_register? hroot
  have hlow := (hrootHas.whole hisRoot).1
  have hparent := parent_root hroot hisRoot
  have hlt := hreg.write_lt (hbits ▸ m.register_lt root) value
  have hread : root.read (m.root reg.parent) = root.read (m.register root) := by
    rw [register, hparent, Register.read, Register.read, hlow, Nat.shiftRight_zero,
      Nat.shiftRight_zero, truncate_of_lt (truncate_lt _ _)]
  calc (m.setRegister reg value).register root
    _ = root.read (reg.write (m.root reg.parent) value) := by
      rw [register, root_setRegister, if_pos hparent.symm]
    _ = root.read (reg.write (m.register root) value) :=
      hrootHas.read_write_congr (hparent ▸ hroot) hread reg value
    _ = reg.write (m.register root) value := by
      rw [Register.read, hlow, Nat.shiftRight_zero, truncate_of_lt (hbits ▸ hlt)]

/-- A register of the root that is written has the bits of the value where they are its
own, and elsewhere the bits that it had, or none. -/
theorem Machine.testBit_setRegister (hreg : arch.Has reg) (hother : arch.Has other)
    (hparent : other.parent = reg.parent) (m : Machine) (value : Nat) (hi : i < other.bits) :
    ((m.setRegister reg value).register other).testBit i =
      if reg.low ≤ other.low + i ∧ other.low + i < reg.low + reg.bits then
        value.testBit (other.low + i - reg.low)
      else reg.merge = .preserve && (m.register other).testBit i := by
  obtain ⟨root, hroot, -, hbits⟩ := hreg.root
  have hbits' := (hother.isRoot_and_bits (hparent ▸ hroot)).2
  have hbound := hother.bound
  have hlim : other.bits ≤ limit := hother.wordWidth.2
  rw [register, root_setRegister, if_pos hparent.symm, register, hparent, Register.read,
    Register.read, testBit_truncate hlim, testBit_truncate hlim, Nat.testBit_shiftRight,
    Nat.testBit_shiftRight, hreg.testBit_write (by omega)]
  simp [hi]

end

/-- In an engine whose roots are bound to words of their widths, as they are in every one
that actions lead to, and in which the formula of every register has the value of the
register, a word of the width of a register is merged into the root: what comes out has
the width of the root, and the value that the machine writes to it. After this write the
registers of the root have the bits of the word where the register is, and elsewhere the
bits that they had, or none if the register clears the rest of its root. All other
registers are as they were. -/
theorem mergeRegister_writes {V : View} {e : Engine} (hwatches : V.Watches e)
    (hmatch : e.RegistersMatch) {reg root : Register} (hreg : e.arch.Has reg)
    (hroot : e.arch.register? reg.parent = some root) {value : Formula}
    (hvalue : value.WellFormed e.scope) (hword : value.isArray = false)
    (hwidth : value.width = reg.bits) :
    ∃ f pool, Engine.mergeRegister reg value e = .ok f (e.withPool pool) ∧
      f.width = root.bits ∧
      e.evaluate f = reg.write (e.machine.register root) (e.evaluate value) ∧
      e.evaluate f = (e.machine.setRegister reg (e.evaluate value)).register root ∧
      ∀ other, e.arch.Has other →
        (other.parent = reg.parent → ∀ i, i < other.bits →
          ((e.machine.setRegister reg (e.evaluate value)).register other).testBit i =
            if reg.low ≤ other.low + i ∧ other.low + i < reg.low + reg.bits then
              (e.evaluate value).testBit (other.low + i - reg.low)
            else reg.merge = .preserve && (e.machine.register other).testBit i) ∧
        (other.parent ≠ reg.parent →
          (e.machine.setRegister reg (e.evaluate value)).register other =
            e.machine.register other) := by
  have hgives : V.Gives value reg.bits (e.evaluate value) := by
    refine ⟨hwatches.scope_eq.symm ▸ hvalue, hword, hwidth, fun hv => ?_, fun hbare =>
      absurd hbare hwatches.reads⟩
    rw [hwatches.only hv, evaluate, Formula.value_eq_eval]
  have hold : V.Forms e.modes.rules (e.symbolic.registerFormula e.machine root) root.bits
      (e.machine.register root) :=
    (hwatches.showsRegisters hmatch).registerFormula (has_of_register? hroot) fun _ => rfl
  obtain ⟨f, hf, hmerged⟩ := (View.Forms.mergeRegister hreg hroot hold hgives).answers trivial
  obtain ⟨pool, hrun⟩ := run_build_ok (e := e) hf
  have hmachine := hwatches.evaluate hmerged
  refine ⟨f, pool, hrun, hmerged.width_eq, ?_, hmachine, fun other hother => ⟨?_, ?_⟩⟩
  · rw [hmachine, root_write hreg hroot]
  · intro hparent i hi
    exact testBit_setRegister hreg hother hparent _ _ hi
  · intro hne
    exact register_setRegister_of_ne hne.symm _ _

/-- A byte of the accumulator that does not start where the accumulator does. -/
theorem mergeRegister_writes_upperByte :
    (X86.symbolizedParts [X86.accumulator]).RegistersMatch ∧
    ∃ f pool, Engine.mergeRegister X86.upperByte (.constant 0xff 8)
        (X86.symbolizedParts [X86.accumulator]) =
          .ok f ((X86.symbolizedParts [X86.accumulator]).withPool pool) ∧
      (X86.symbolizedParts [X86.accumulator]).evaluate f = 0x112233445566ff88 := by
  have hmatch : (symbolizedParts [accumulator]).RegistersMatch :=
    symbolizedParts_match (by unfold Has; decide +kernel)
  have harch : (symbolizedParts [accumulator]).arch = .x86_64 := by decide +kernel
  obtain ⟨V, hwatches⟩ := symbolizedParts_watched [accumulator]
  have hwell : (Formula.constant 0xff 8).WellFormed
      (symbolizedParts [accumulator]).context.scope := ⟨by decide, by decide⟩
  obtain ⟨f, pool, hrun, -, hvalue, -⟩ :=
    mergeRegister_writes hwatches hmatch (harch.symm ▸ holds_bytes.high)
      (show _ = some accumulator by decide +kernel) hwell rfl (by decide +kernel)
  refine ⟨hmatch, f, pool, hrun, ?_⟩
  rw [hvalue]
  decide +kernel

end Concolic
