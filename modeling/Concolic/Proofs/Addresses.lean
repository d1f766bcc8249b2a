import Concolic.Proofs.Comparison
import Concolic.Proofs.SetMemory

/-
  The addresses of memory operands.

  An operand whose address is computed from registers has, once its instruction was
  processed, the address that base, index and displacement come to before it; an operand
  without registers keeps the address that it was made with. The address that is loaded
  (`X86.lea`) is computed in both cases. A slot of the stack is where the formula of the
  stack pointer says each time: if this reads the slot, what is popped is not what was
  pushed (`pop_after_push_differs`).
-/

namespace Concolic

open Access Step Architecture Instruction X86 Engine

namespace Access

/-- The access is made from a fixed address by setting its base, its index and its
displacement, in any order and any number of times. -/
inductive Built (arch : Architecture) : Access → Prop where
  | fixed (address : Address) {bits : Nat} (pos : bits ≠ 0) (whole : bits % 8 = 0) :
      Built arch (.fixed address bits)
  | withBase {access : Access} {base : Register} (built : Built arch access)
      (has : arch.Has base) : Built arch (access.withBase base)
  | withIndex {access : Access} {index : Register} (built : Built arch access)
      (has : arch.Has index) (scale : Nat) : Built arch (access.withIndex index scale)
  | withDisplacement {access : Access} (built : Built arch access) (displacement : Int64) :
      Built arch (access.withDisplacement displacement)

variable {arch : Architecture} {access : Access}

theorem base_relative (access : Access) : access.relative.base = access.base := by
  unfold relative
  split <;> rfl

theorem index_relative (access : Access) : access.relative.index = access.index := by
  unfold relative
  split <;> rfl

theorem bits_relative (access : Access) : access.relative.bits = access.bits := by
  unfold relative
  split <;> rfl

theorem Built.resolves (h : Built arch access) :
    (Operand.memory access).Resolves arch ∧ access.bits ≠ 0 ∧ access.bits % 8 = 0 := by
  suffices hsuits : access.Suits arch False ∧ access.bits ≠ 0 ∧ access.bits % 8 = 0 from
    ⟨⟨hsuits.1, fun _ => hsuits.2⟩, hsuits.2⟩
  induction h with
  | fixed address pos whole =>
    exact ⟨⟨fun _ h => (by cases h), fun _ h => (by cases h), False.elim⟩, pos, whole⟩
  | withBase built has ih =>
    obtain ⟨hsuits, hbits⟩ := ih
    refine ⟨⟨fun reg hreg => Option.some.inj hreg ▸ has, fun reg hreg => ?_, False.elim⟩,
      (bits_relative _).symm ▸ hbits⟩
    exact hsuits.index reg ((index_relative _).symm.trans hreg)
  | withIndex built has scale ih =>
    obtain ⟨hsuits, hbits⟩ := ih
    refine ⟨⟨fun reg hreg => ?_, fun reg hreg => Option.some.inj hreg ▸ has, False.elim⟩,
      (bits_relative _).symm ▸ hbits⟩
    exact hsuits.base reg ((base_relative _).symm.trans hreg)
  | withDisplacement built displacement ih => exact ⟨⟨ih.1.base, ih.1.index, False.elim⟩, ih.2⟩

end Access

namespace Instruction

variable (inst : Instruction) (arch : Architecture) (m : Machine)

/-- Base, index times scale and displacement of an access, in the width of addresses; a
scale of zero counts as one. -/
def effectiveAddress (access : Access) : Nat :=
  Word.wrap arch.addressWidth (access.displacement.toInt + inst.partValue arch m access.base +
    inst.partValue arch m access.index * (max access.scale 1 : Nat))

variable {arch m} {access : Access}

/-- The address of an access is the effective one if it is computed, or was not displaced and
lies in the address space. -/
theorem toNat_addressOf (h : access.isComputed = true ∨
      access.displacement = access.address.toInt64 ∧
        access.address.toNat < Word.modulus arch.addressWidth) :
    (inst.addressOf arch m access).toNat = inst.effectiveAddress arch m access := by
  have hlim : Word.modulus arch.addressWidth ≤ 2 ^ 64 := Word.modulus_mono arch.addressWidth_le
  unfold addressOf
  cases hcomputed : access.isComputed with
  | true =>
    have hlt := Word.wrap_lt arch.addressWidth (access.displacement.toInt +
      inst.partValue arch m access.base +
        inst.partValue arch m access.index * (max access.scale 1 : Nat))
    exact Nat.mod_eq_of_lt (lt_of_lt_of_le hlt hlim)
  | false =>
    obtain ⟨hdisplacement, hlt⟩ := h.resolve_left (by rw [hcomputed]; exact Bool.false_ne_true)
    simp only [isComputed, Bool.or_eq_false_iff, Option.isSome_eq_false_iff,
      Option.isNone_iff_eq_none] at hcomputed
    rw [if_neg Bool.false_ne_true, effectiveAddress, hcomputed.1, hcomputed.2, hdisplacement]
    simp only [partValue, Nat.cast_zero, zero_mul, add_zero]
    exact (Word.wrap_toInt64 arch.addressWidth_le hlt).symm

end Instruction

theorem Engine.operands_process {e : Engine} (hgrounded : e.Grounded False False) {V : View}
    (hshows : V.Shows e) {inst : Instruction} (hops : ∀ op ∈ inst.operands, op.Resolves e.arch)
    (hknown : ∀ op ∈ inst.operands, op.Known)
    (hsupported : (e.arch.semantics? inst.opcode).isSome = true) {fault : Option Fault}
    {s' : Frame} (hrun : process ⟨e, inst⟩ = .ok fault s') :
    s'.instruction.operands = inst.operands.map (inst.placed e.arch e.machine) := by
  obtain ⟨action, hact⟩ := Option.isSome_iff_exists.1 hsupported
  obtain ⟨s₁, s₂, hresolve, haction, hsettle⟩ := process_eq_ok (s := ⟨e, inst⟩) hact hrun
  obtain ⟨s, hresolve', hs, ⟨pool, hengine⟩, -⟩ := resolves_operands hshows hops
  obtain rfl : s₁ = s := by
    rw [hresolve] at hresolve'
    cases hresolve'
    rfl
  have hplaced : s₁.instruction.operands = inst.operands.map (inst.placed e.arch e.machine) :=
    hs.operands
  have hkept : s₂.instruction.code = s₁.instruction.code := by
    have h := code_action (s := s₁) (by rw [hengine]; exact hgrounded)
      (fun op hop => by
        rw [hplaced] at hop
        obtain ⟨old, hold, rfl⟩ := List.mem_map.1 hop
        have hknown := hknown old hold
        cases old <;> exact hknown)
      (by rw [hengine]; exact hact)
    rwa [haction] at h
  have hsettled : s'.instruction.code = s₂.instruction.code := by
    have hkept : Retains (fun s : Frame => s.instruction.code) (settle fault) :=
      retains_settle (fun _ _ _ _ _ => rfl) fault
    have h := retains_iff.1 hkept s₂
    rwa [hsettle] at h
  exact (congrArg (fun c => c.2.2) (hsettled.trans hkept)).trans hplaced

theorem Scene.Reaches.lea {S : Scene} {m : Machine} {dst : Operand} {access : Access}
    {width : Nat} (hdst : S.code.operands[0]? = some dst)
    (hsrc : S.code.operands[1]? = some (.memory access)) (hsuits : access.Suits S.arch False)
    (htarget : dst.Target S.arch width) (hrange : Formula.WordWidth width) :
    S.Reaches m lea (m.store S.arch dst
      (Word.truncate width (S.code.effectiveAddress S.arch m access))) := by
  refine (Runs.operand hdst).reaches fun found hfound => ?_
  refine (Runs.operand hsrc).reaches fun other hother => ?_
  subst hfound hother
  refine (Runs.of_makes fun _ hs => hs.effectiveAddress hsuits).reaches fun f hf => ?_
  rw [htarget.bits]
  refine (Runs.build fun _ => View.Forms.resize hf hrange).reaches fun value hvalue => ?_
  exact assign htarget hvalue _ fun _ => ⟨_, _, rfl⟩

/-- An instruction that is processed in a coherent engine leaves in each memory operand the
effective address, if the operand has a base or an index; if it has none, the address that it
was made with, which is the effective one unless it was displaced or lies outside of the
address space. The address that `lea` writes is always the effective one. -/
theorem operands_have_effective_addresses {arch : Architecture} {modes : Modes} {e : Engine}
    {given : List Formula} (hturns : Engine.Turns False { arch, modes } [] e given)
    (hcoherent : e.Coherent) (harray : e.modes.isOn .memoryArray = false)
    (hwhole : e.modes.isOn .alignedMemory = false) {inst : Instruction}
    (hbuilt : ∀ access, .memory access ∈ inst.operands → access.Built e.arch)
    (hknown : ∀ op ∈ inst.operands, op.Known) :
    (∀ fault s', (e.arch.semantics? inst.opcode).isSome = true →
      Step.process ⟨e, inst⟩ = .ok fault s' →
      ∀ (i : Nat) (access : Access), inst.operands[i]? = some (.memory access) →
        ∃ address, s'.instruction.operands[i]? = some (.memory { access with address }) ∧
          (access.isComputed = false → address = access.address) ∧
          (access.isComputed = true ∨ access.displacement = access.address.toInt64 ∧
              access.address.toNat < Word.modulus e.arch.addressWidth →
            address.toNat = inst.effectiveAddress e.arch e.machine access)) ∧
    (e.arch.isX86 = true → X86.operation? inst.opcode = some .lea →
      ∀ dst access width, inst.operands[0]? = some dst →
        inst.operands[1]? = some (.memory access) → dst.Target e.arch width →
        Formula.WordWidth width →
        e.Writes inst dst width
          (Word.truncate width (inst.effectiveAddress e.arch e.machine access))) := by
  have hshows : (e.present hcoherent.bounded e.Steady).Shows e := hcoherent.shows id harray hwhole
  have hops : ∀ op ∈ inst.operands, op.Resolves e.arch := by
    intro op hop
    cases op with
    | memory access => exact (hbuilt access hop).resolves.1
    | _ => trivial
  constructor
  · intro fault s' hsupported hrun i access hi
    have hgrounded := (hturns.kept (.start False arch modes)).1.grounded
    refine ⟨inst.addressOf e.arch e.machine access, ?_, fun hfixed => ?_, inst.toNat_addressOf⟩
    · rw [Engine.operands_process hgrounded hshows hops hknown hsupported hrun, List.getElem?_map, hi]
      rfl
    · simp only [Instruction.addressOf, hfixed, Bool.false_eq_true, if_false]
  · intro hx86 hop dst access width hdst hsrc htarget hrange
    have hsuits := (hbuilt access (List.mem_of_getElem? hsrc)).resolves.1.1
    refine Engine.process_writes hshows hops (by rw [semantics?_x86 hx86, hop]; rfl) ?_ htarget
      hrange (Word.truncate_lt _ _)
    have hreaches := Scene.Reaches.lea (S := e.scene (e.present hcoherent.bounded e.Steady) inst)
      (m := e.machine) (Engine.scene_operand hdst)
      (show _ = some (Operand.memory { access with
        address := inst.addressOf e.arch e.machine access }) from Engine.scene_operand hsrc)
      ⟨hsuits.base, hsuits.index, hsuits.size⟩ (htarget.placed inst) hrange
    exact hreaches

def loadAddress (access : Access) : Instruction :=
  .decoded 0x400000 7 58 [.register X86.accumulatorByte, .memory access] ""

section

variable {access : Access} (h : access.Built .x86_64)

include h

theorem loadAddress_built :
    ∀ other, .memory other ∈ (loadAddress access).operands → other.Built .x86_64 := by
  intro other hother
  obtain rfl : other = access := by
    simpa [loadAddress, decoded, maxOperands] using hother
  exact h

theorem loadAddress_known : ∀ op ∈ (loadAddress access).operands, op.Known :=
  decoded_two ⟨_, accumulatorByte_has⟩
    ⟨fun reg hreg => ⟨_, h.resolves.1.1.base reg hreg⟩,
      fun reg hreg => ⟨_, h.resolves.1.1.index reg hreg⟩⟩

end

theorem coherent_new : (Engine.new .x86_64).Coherent :=
  coherent_of_passes Context.bounded_empty (by decide +kernel)

/-- Below the stack pointer, which is zero, addresses wrap around. -/
theorem operands_have_effective_addresses_belowStack :
    ∃ s' address, Step.process ⟨.new .x86_64, loadAddress
        (((Access.fixed 0x1000 64).withBase Architecture.x86_64.stackPointer).withDisplacement
          (-8))⟩ = .ok none s' ∧
      (s'.instruction.operands[1]?.bind Operand.memory?).map Access.address = some address ∧
      address.toNat = 2 ^ 64 - 8 ∧
      s'.machine.register X86.accumulatorByte = 0xf8 := by
  have hbuilt : (((Access.fixed 0x1000 64).withBase
      Architecture.x86_64.stackPointer).withDisplacement (-8)).Built .x86_64 :=
    .withDisplacement (.withBase (.fixed _ (by decide) (by decide))
      Architecture.x86_64.stackPointer_has) _
  obtain ⟨haddress, hlea⟩ := operands_have_effective_addresses
    (e := .new .x86_64) .none coherent_new (by decide) (by decide)
    (loadAddress_built hbuilt) (loadAddress_known hbuilt)
  obtain ⟨s', hrun, -, hvalue⟩ := hlea rfl (by decide +kernel) (.register X86.accumulatorByte) _ 8
    rfl rfl ⟨⟨X86.accumulatorByte_has, by decide +kernel⟩, rfl⟩ (by decide)
  obtain ⟨address, hoperand, -, heffective⟩ := haddress none s' (by decide +kernel) hrun 1 _ rfl
  refine ⟨s', address, hrun, by rw [hoperand]; rfl,
    (heffective (.inl (by decide +kernel))).trans (by decide +kernel), ?_⟩
  exact (hvalue (by decide +kernel) (by decide +kernel)).trans (by decide +kernel)

/-- A fixed address that is displaced stays where it was, and what is loaded is the
displacement alone. -/
theorem displaced_address_stays :
    ((Access.fixed 0x1000 64).withDisplacement 0x10).Built .x86_64 ∧
    (Engine.new .x86_64).Coherent ∧
    (Architecture.x86_64.semantics? (loadAddress
      ((Access.fixed 0x1000 64).withDisplacement 0x10)).opcode).isSome = true ∧
    (loadAddress ((Access.fixed 0x1000 64).withDisplacement 0x10)).effectiveAddress .x86_64 {}
      ((Access.fixed 0x1000 64).withDisplacement 0x10) = 0x10 ∧
    ∃ s', Step.process ⟨.new .x86_64, loadAddress
        ((Access.fixed 0x1000 64).withDisplacement 0x10)⟩ = .ok none s' ∧
      (s'.instruction.operands[1]?.bind Operand.memory?).map Access.address = some 0x1000 ∧
      s'.machine.register X86.accumulatorByte = 0x10 := by
  refine ⟨.withDisplacement (.fixed _ (by decide) (by decide)) _, coherent_new, by decide +kernel,
    by decide +kernel, ?_⟩
  exact Step.exists_frame (by decide +kernel)

def X86.dataRegister : Register := x86_64.numbered X86.rdx

/-- The stack pointer was loaded from the slot below it. -/
def X86.pointerInSlot : Engine :=
  (X86.loaded x86_64.stackPointer 8 [8, 0x10]).setRegister X86.dataRegister 0x2000

/-- The push changes what the formula of the stack pointer reads: the pop takes its value
from elsewhere, and the stack pointer is not where it was. -/
theorem pop_after_push_differs :
    pointerInSlot.Coherent ∧
    (∀ mode ∈ [Mode.memoryArray, .alignedMemory], pointerInSlot.modes.isOn mode = false) ∧
    pointerInSlot.machine.register dataRegister = 0x2000 ∧
    pointerInSlot.machine.register x86_64.stackPointer = 0x1008 ∧
    ∃ s s', Step.process ⟨pointerInSlot, .decoded 0x400008 1 69 [.register dataRegister] ""⟩ =
        .ok none s ∧
      Step.process ⟨s.engine, .decoded 0x400009 1 68 [.register dataRegister] ""⟩ = .ok none s' ∧
      s'.machine.register dataRegister ≠ 0x2000 ∧
      s'.machine.register x86_64.stackPointer ≠ 0x1008 := by
  refine ⟨coherent_of_passes (Context.bounded_of_vars ?_) ?_, ?_, ?_, ?_, _, _,
    Step.eq_ok_of_answer ?_, Step.eq_ok_of_answer ?_, ?_, ?_⟩ <;> decide +kernel

end Concolic
