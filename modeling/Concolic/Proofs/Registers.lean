import Concolic.Proofs.WellFormed
import Concolic.Symbolic

/-
  The register tables: every register lies in a root of its architecture, and
  has one of the widths of whole writes, or is a flag.
-/

namespace Concolic

variable {arch : Architecture} {id : Nat} {reg other : Register}

/-- The register is one of the architecture's. -/
def Architecture.Has (arch : Architecture) (reg : Register) : Prop :=
  arch.register? reg.id = some reg

namespace Architecture

theorem register?_id (h : arch.register? id = some reg) : reg.id = id := by
  cases arch <;>
    simp only [register?, Option.bind_eq_bind, Option.bind_eq_some_iff, Option.pure_def,
      Option.some.injEq] at h <;>
    obtain ⟨row, -, root, -, parentRow, -, rfl⟩ := h <;> rfl

theorem parent_root (h : arch.register? id = some reg) (hroot : reg.isRoot = true) :
    reg.parent = id := (beq_iff_eq.1 hroot).symm.trans (register?_id h)

theorem has_of_register? (h : arch.register? id = some reg) : arch.Has reg := by
  unfold Has
  rw [register?_id h]
  exact h

/-- The register of a number that the architecture has. -/
def numbered (arch : Architecture) (id : Nat)
    (h : (arch.register? id).isSome = true := by decide +kernel) : Register :=
  (arch.register? id).get h

theorem numbered_has (h : (arch.register? id).isSome = true) : arch.Has (arch.numbered id h) :=
  has_of_register? (Option.some_get h).symm

theorem numbered_id (h : (arch.register? id).isSome = true) : (arch.numbered id h).id = id :=
  register?_id (Option.some_get h).symm

theorem has_of_register {arch : Architecture} {id : Nat} (h : arch.register id = .ok reg) :
    arch.Has reg := by
  unfold register at h
  split at h
  · next found =>
    obtain rfl := Except.ok.inj h
    exact has_of_register? found
  · cases h

theorem Has.eq_of_id (h : arch.Has reg) (hother : arch.Has other) (hid : reg.id = other.id) :
    reg = other := by
  unfold Has at h hother
  rw [hid, hother] at h
  exact (Option.some.inj h).symm

theorem Has.root_eq_self {root : Register} (h : arch.Has reg)
    (hroot : arch.register? reg.parent = some root) (hself : reg.isRoot = true) : root = reg := by
  have hid : reg.id = reg.parent := beq_iff_eq.1 hself
  exact (has_of_register? hroot).eq_of_id h ((register?_id hroot).trans hid.symm)

theorem register?_range (h : arch.register? id = some reg) :
    arch.firstRegister ≤ id ∧ id - arch.firstRegister < arch.registerTable.length := by
  have hrow : ∃ row, arch.row? id = some row := by
    cases arch <;>
      simp only [register?, Option.bind_eq_bind, Option.bind_eq_some_iff] at h <;>
      obtain ⟨row, hrow, -⟩ := h <;> exact ⟨row, hrow⟩
  obtain ⟨row, hrow⟩ := hrow
  unfold row? at hrow
  split at hrow
  · next hle => exact ⟨hle, (getElem?_eq_some_iff.1 hrow).1⟩
  · cases hrow

theorem Has.mem_registers (h : arch.Has reg) : reg ∈ arch.registers := by
  obtain ⟨hle, hlt⟩ := register?_range h
  refine List.mem_filterMap.2 ⟨reg.id - arch.firstRegister, List.mem_range.2 hlt, ?_⟩
  rw [Nat.add_sub_cancel' hle]
  exact h

/-! Where a register lies in its root. -/

section

variable {arch : Architecture} {reg : Register}

section

variable (h : arch.Has reg)

include h

theorem Has.bits_pos : 1 ≤ reg.bits := by
  have hall : ∀ reg ∈ arch.registers, 1 ≤ reg.bits := by cases arch <;> decide +kernel
  exact hall reg h.mem_registers

theorem Has.bound : reg.low + reg.bits ≤ reg.parentBits := by
  have hall : ∀ reg ∈ arch.registers, reg.low + reg.bits ≤ reg.parentBits := by
    cases arch <;> decide +kernel
  exact hall reg h.mem_registers

theorem Has.parentBits_le : reg.parentBits ≤ 64 := by
  have hall : ∀ reg ∈ arch.registers, reg.parentBits ≤ 64 := by cases arch <;> decide +kernel
  exact hall reg h.mem_registers

/-- A register of whole bytes has the size of a whole write. -/
theorem Has.size (hbits : reg.bits % 8 = 0) : reg.bits / 8 ∈ Symbolic.alignedSizes := by
  have hall : ∀ reg ∈ arch.registers,
      reg.bits % 8 = 0 → reg.bits / 8 ∈ Symbolic.alignedSizes := by
    cases arch <;> decide +kernel
  exact hall reg h.mem_registers hbits

theorem Has.whole (hroot : reg.isRoot = true) : reg.low = 0 ∧ reg.bits = reg.parentBits := by
  have hall : ∀ reg ∈ arch.registers,
      reg.isRoot = true → reg.low = 0 ∧ reg.bits = reg.parentBits := by
    cases arch <;> decide +kernel
  exact hall reg h.mem_registers hroot

theorem Has.root :
    ∃ root, arch.register? reg.parent = some root ∧ root.isRoot = true ∧
      root.bits = reg.parentBits := by
  have hall : ∀ reg ∈ arch.registers, (arch.register? reg.parent).any
      (fun root => root.isRoot && root.bits == reg.parentBits) = true := by
    cases arch <;> decide +kernel
  obtain ⟨root, hroot, hprop⟩ := Option.any_eq_true _ _ |>.1 (hall reg h.mem_registers)
  simp only [Bool.and_eq_true, beq_iff_eq] at hprop
  exact ⟨root, hroot, hprop⟩

theorem Has.isRoot_and_bits {root : Register} (hroot : arch.register? reg.parent = some root) :
    root.isRoot = true ∧ root.bits = reg.parentBits := by
  obtain ⟨again, hagain, hprop⟩ := h.root
  exact Option.some.inj (hagain.symm.trans hroot) ▸ hprop

end

end

theorem Has.wordBits (h : arch.Has reg) : 1 ≤ reg.bits ∧ reg.bits ≤ 64 := by
  have hbound := h.bound
  have hlim := h.parentBits_le
  exact ⟨h.bits_pos, by omega⟩

theorem Has.wordWidth (h : arch.Has reg) : Formula.WordWidth reg.bits :=
  ⟨h.wordBits.1, le_trans h.wordBits.2 (by decide)⟩

/-- The zero registers are those in the root of the zero register. -/
theorem Has.isZeroRegister_congr (h : arch.Has reg) (hother : arch.Has other)
    (hparent : reg.parent = other.parent) :
    arch.isZeroRegister reg = arch.isZeroRegister other := by
  have hall : ∀ reg ∈ arch.registers,
      arch.isZeroRegister reg = (!arch.isX86 && reg.parent == AArch64.xzr) := by
    cases arch <;> decide +kernel
  rw [hall reg h.mem_registers, hall other hother.mem_registers, hparent]

theorem stackPointer_has (arch : Architecture) : arch.Has arch.stackPointer := by
  cases arch <;> rfl

theorem programCounter_has (arch : Architecture) : arch.Has arch.programCounter := by
  cases arch <;> rfl

theorem addressWidth_range (arch : Architecture) : Formula.WordWidth arch.addressWidth := by
  cases arch <;> exact ⟨by decide, by decide⟩

end Architecture

def X86.accumulator : Register := Architecture.x86_64.numbered rax

/-- The register is one of some architecture's. -/
def Register.Known (reg : Register) : Prop := ∃ arch : Architecture, arch.Has reg

/-- The registers of the operand are registers of some architecture. -/
def Operand.Known : Operand → Prop
  | .immediate _ => True
  | .register reg => reg.Known
  | .memory access => (∀ reg, access.base = some reg → reg.Known) ∧
      ∀ reg, access.index = some reg → reg.Known

theorem Register.Known.wordWidth (h : reg.Known) : Formula.WordWidth reg.bits := by
  obtain ⟨arch, harch⟩ := h
  exact harch.wordWidth

/-- A register that lies in a root of an architecture is the architecture's: other
architectures have no registers there but the flags that they share. -/
theorem Register.Known.has {root : Register} (h : reg.Known) (hroot : arch.Has root)
    (hisRoot : root.isRoot = true) (hid : root.id = reg.parent) : arch.Has reg := by
  obtain ⟨other, hother⟩ := h
  have hall : ∀ reg ∈ other.registers, (arch.register? reg.parent).any isRoot = true →
      arch.register? reg.id = some reg := by
    cases arch <;> cases other <;> decide +kernel
  refine hall reg hother.mem_registers ?_
  have hlook : arch.register? reg.parent = some root := by rw [← hid]; exact hroot
  rw [hlook]
  exact hisRoot

/-- A root that a register lies in, of whichever architecture, is as wide as the register
says; and a register that is a root is that root. -/
theorem Register.Known.of_root {root : Register} (h : reg.Known) (hroot : root.Known)
    (hisRoot : root.isRoot = true) (hid : root.id = reg.parent) :
    root.bits = reg.parentBits ∧ reg.low + reg.bits ≤ reg.parentBits ∧
      (reg.isRoot = true → root = reg) := by
  obtain ⟨arch, harch⟩ := hroot
  have hreg : arch.Has reg := h.has harch hisRoot hid
  obtain ⟨other, hother, -, hbits⟩ := hreg.root
  obtain rfl : root = other := harch.eq_of_id (Architecture.has_of_register? hother)
    (hid.trans (Architecture.register?_id hother).symm)
  exact ⟨hbits, hreg.bound, fun hself => hreg.root_eq_self hother hself⟩

end Concolic
