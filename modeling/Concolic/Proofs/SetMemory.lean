import Concolic.Proofs.Arithmetic
import Concolic.Proofs.ByteMap
import Concolic.Proofs.Operations
import Concolic.Proofs.Safety.Process

/-
  Loads from memory that was set.

  Bytes that are set from outside lose their formulas and the whole writes that they are
  a part of (`Engine.clear_setMemory`), so that a load finds them as constants, whatever
  was known of them before. The memory array is not told: where memory is one array, a
  byte that was stored into it still covers the byte that was set (`Engine.cover?`).

  A load is followed in a view of the present alone (`View.Watches`): what the engine has
  for the rest of the destination's root need not be the value of the machine, so it is
  enough that it has some value there.
-/

namespace Concolic

open Access (distance addressesFrom)
open Step Machine Symbolic Word X86 Concolic.Action Concolic.Frame Operand

variable {address : Address} {e : Engine} {s : Frame} {f : Formula} {bits i width : Nat}
  {reg root : Register} {actions : List Action} {taint : Step Bool}

/-- The address of a byte, where addresses do not wrap around. -/
theorem Access.toNat_place (h : address.toNat + i < 2 ^ 64) :
    (address + i.toUInt64).toNat = address.toNat + i := by
  rw [UInt64.toNat_add, Nat.toUInt64, UInt64.toNat_ofNat']
  omega

/-! The bytes of an array. -/

namespace Formula

/-- The byte that was stored last into an array at an address, if one was. -/
def stored? (v : Valuation) : Formula → (address : Nat) → Option Nat
  | store array index value, address =>
    if index.eval v = address then some (value.eval v) else array.stored? v address
  | _, _ => none

/-- What an array has at an address was stored there, or is the byte of memory. -/
theorem readArray_eq_getD (v : Valuation) (f : Formula) (address : Nat) :
    f.readArray v address = (f.stored? v address).getD (v.byte address.toUInt64).toNat := by
  induction f with
  | store array index value ih =>
    rw [readArray, stored?]
    split
    · rfl
    · exact ih
  | _ => rfl

end Formula

namespace Engine

/-- The byte of the memory array that hides the byte of memory at an address, where memory
is one array. -/
def cover? (e : Engine) (address : Address) : Option UInt8 :=
  if e.modes.isOn .memoryArray then
    (e.array.stored? e.valuation address.toNat).map Nat.toUInt8
  else none

/-- The byte that a load finds at an address that has no formula of its own. -/
def found (e : Engine) (address : Address) : UInt8 :=
  (e.cover? address).getD (e.machine.byte address)

theorem found_of_noArray (h : e.modes.isOn .memoryArray = false) (address : Address) :
    e.found address = e.machine.byte address := by
  simp [found, cover?, h]

theorem found_of_array (h : e.modes.isOn .memoryArray = true)
    (hbytes : ∀ place, e.array.readArray e.valuation place < 256) (address : Address) :
    (e.found address).toNat = e.array.readArray e.valuation address.toNat := by
  have hread := e.array.readArray_eq_getD e.valuation address.toNat
  have hlt := hbytes address.toNat
  rw [found, cover?, if_pos h]
  cases hstored : e.array.stored? e.valuation address.toNat with
  | none =>
    rw [hstored] at hread
    rw [hread, Option.map_none, Option.getD_none, Option.getD_none]
    exact congrArg (fun a => (e.machine.byte a).toNat) UInt64.ofNat_toNat.symm
  | some byte =>
    rw [hstored, Option.getD_some] at hread
    rw [Option.map_some, Option.getD_some, hread]
    exact Nat.mod_eq_of_lt (hread ▸ hlt)

/-! Memory that is set. -/

/-- The bytes from an address on have no formulas, and no write of just them is kept as a
whole. -/
structure Clear (e : Engine) (address : Address) (bytes : Nat) : Prop where
  unbound : ∀ place ∈ addressesFrom address bytes, e.symbolic.memory[place]? = none
  whole : e.symbolic.aligned? address bytes = none

end Engine

namespace Symbolic

variable {s : Symbolic} {places : List Address}

theorem memory_concretizeBytes {place : Address} (h : place ∈ places) :
    (places.foldl concretizeByte s).memory[place]? = none := by
  have hmemory : (places.foldl concretizeByte s).memory = places.foldl (·.erase ·) s.memory := by
    clear h
    induction places generalizing s with
    | nil => rfl
    | cons first places ih => exact ih
  rw [hmemory, getElem?_foldl_erase, if_pos h]

/-- A whole write that is kept has none of the bytes that are unbound. -/
theorem aligned_concretizeBytes {w : AlignedWrite} (hsize : w.bytes ∈ alignedSizes)
    (h : w ∈ (places.foldl concretizeByte s).aligned) :
    w ∈ s.aligned ∧ ∀ place ∈ places, ¬ distance w.address place < w.bytes := by
  induction places generalizing s with
  | nil => exact ⟨h, by simp⟩
  | cons first places ih =>
    obtain ⟨hfirst, hrest⟩ := ih h
    refine ⟨(List.mem_filter.1 hfirst).1, List.forall_mem_cons.2 ⟨fun hin => ?_, hrest⟩⟩
    refine mem_dropAligned hsize hfirst hin ?_
    rw [Access.distance_self]
    exact one_pos

end Symbolic

namespace Engine

section

variable {start address : Address} {data : List UInt8} {bytes : Nat}
  (hspan : start.toNat + data.length ≤ 2 ^ 64) (hstart : start.toNat ≤ address.toNat)
  (hend : address.toNat + bytes ≤ start.toNat + data.length)

include hspan hstart hend

theorem distance_inside (hi : i < bytes) :
    distance start (address + i.toUInt64) = address.toNat - start.toNat + i := by
  have hplace := Access.toNat_place (show address.toNat + i < 2 ^ 64 by omega)
  rw [distance, UInt64.toNat_sub, hplace]
  omega

theorem clear_setMemory (e : Engine) (hsize : bytes ∈ alignedSizes) :
    (e.setMemory start data).Clear address bytes := by
  have hmem : ∀ i < bytes, address + i.toUInt64 ∈ addressesFrom start data.length := by
    intro i hi
    rw [Access.mem_addressesFrom (by omega), distance_inside hspan hstart hend hi]
    omega
  refine ⟨fun place hplace => ?_, ?_⟩
  · obtain ⟨i, hi, rfl⟩ := List.mem_map.1 hplace
    exact memory_concretizeBytes (hmem i (List.mem_range.1 hi))
  · rw [aligned?, Option.map_eq_none_iff, List.find?_eq_none]
    intro w hw hsame
    simp only [Bool.and_eq_true, beq_iff_eq] at hsame
    obtain ⟨rfl, rfl⟩ := hsame
    have hpos : 0 < w.bytes := by
      simp only [alignedSizes, List.mem_cons, List.not_mem_nil, or_false] at hsize
      omega
    -- the first byte of the write is one of those that are set
    have hfirst := (aligned_concretizeBytes hsize hw).2 _ (hmem 0 hpos)
    rw [show w.address + (0 : Nat).toUInt64 = w.address from UInt64.add_zero _,
      Access.distance_self] at hfirst
    exact hfirst hpos

theorem map_found_setMemory (e : Engine) :
    (addressesFrom address bytes).map (e.setMemory start data).found =
      ((data.drop (address.toNat - start.toNat)).take bytes).mapIdx fun i byte =>
        ((e.setMemory start data).cover? (address + i.toUInt64)).getD byte := by
  have hlength : ((data.drop (address.toNat - start.toNat)).take bytes).length = bytes := by
    rw [List.length_take, List.length_drop]
    omega
  refine List.ext_getElem ?_ fun i hi hi' => ?_
  · simp [addressesFrom, hlength]
  · have hlt : i < bytes := by simpa [addressesFrom] using hi
    have hbyte : (e.setMemory start data).machine.byte (address + i.toUInt64) =
        data[address.toNat - start.toNat + i] := by
      rw [setMemory, byte_setBytes (by omega), distance_inside hspan hstart hend hlt,
        List.getElem?_eq_getElem (by omega), Option.getD_some]
    simp only [addressesFrom, List.getElem_map, List.getElem_range, List.getElem_mapIdx,
      List.getElem_take, List.getElem_drop, found, hbyte]

end

end Engine

/-! Steps of a load. -/

/-- Bytes without formulas are constants. -/
theorem Engine.Clear.memoryFormula (hclear : e.Clear address (bits / 8))
    (hmode : e.modes.isOn .memoryArray = false) (hpos : 1 ≤ bits / 8) (hmax : bits / 8 ≤ maxBytes)
    (V : View) (rules : Rules) (keep : Bool) :
    V.Forms rules (e.symbolic.memoryFormula keep e.machine (.fixed address bits)) (bits / 8 * 8)
      (ofBytes ((addressesFrom address (bits / 8)).map e.found)) := by
  have hlength : (addressesFrom address (bits / 8)).length = bits / 8 := by simp [addressesFrom]
  have hwhole : (if keep then e.symbolic.aligned? address (bits / 8) else none) = none := by
    rw [hclear.whole, ite_self]
  have hbyte : ∀ place ∈ addressesFrom address (bits / 8),
      V.Forms rules (e.symbolic.byteFormula e.machine place) 8 (e.found place).toNat := by
    intro place hplace
    unfold byteFormula
    rw [hclear.unbound place hplace, e.found_of_noArray hmode]
    exact (View.Forms.constant (by decide) _).of_eq rfl (truncate_of_lt (UInt8.toNat_lt _))
  have hword := View.Forms.ofBytes hbyte (hlength.symm ▸ hpos) (hlength.symm ▸ hmax)
  unfold Symbolic.memoryFormula
  simp only [Access.fixed, Access.bytes, hwhole]
  rw [if_neg (by omega)]
  exact hword.of_eq (by rw [hlength]) rfl

theorem Architecture.addressWidth_le (arch : Architecture) : arch.addressWidth ≤ 64 := by
  cases arch <;> decide

/-- The number of an address is not changed by its reading as a displacement. -/
theorem Word.wrap_toInt64 (hwidth : width ≤ 64) (h : address.toNat < modulus width) :
    wrap width address.toInt64.toInt = address.toNat := by
  have hwrap : wrap width address.toInt64.toInt = wrap width (address.toNat : Int) := by
    have hdvd : (modulus width : Int) ∣ 2 ^ 64 := by
      rw [modulus_eq (le_trans hwidth (by decide)), Nat.cast_pow]
      exact pow_dvd_pow 2 hwidth
    have hread : address.toInt64.toInt = address.toNat ∨
        address.toInt64.toInt = address.toNat - 2 ^ 64 := by
      have hcond : address.toInt64.toInt = address.toBitVec.toInt := rfl
      rw [hcond, BitVec.toInt_eq_toNat_cond]
      split
      · exact .inl rfl
      · exact .inr rfl
    rw [wrap_eq_iff]
    rcases hread with hread | hread
    · rw [hread]
    · obtain ⟨k, hk⟩ := hdvd
      rw [hread, hk, Int.sub_mul_emod_self_left]
  rw [hwrap, wrap_natCast, truncate_of_lt h]

/-- The place of a fixed address in the memory array, whether or not the modes ask for its
formula. -/
theorem Step.run_arrayIndex_fixed (h : address.toNat < modulus s.arch.addressWidth)
    (bits : Nat) (mode : Mode) :
    ∃ pool, arrayIndex (.fixed address bits) mode s =
      .ok (.constant address.toNat s.arch.addressWidth) (s.withPool pool) := by
  have hconstant : ∀ n, truncate s.arch.addressWidth n = address.toNat →
      ∃ pool, exec (Exec.build (Build.constant n s.arch.addressWidth)) s =
        .ok (.constant address.toNat s.arch.addressWidth) (s.withPool pool) := by
    intro n hn
    obtain ⟨pool, hrun⟩ := run_build (s := s) (.constant s.arch.addressWidth_range n)
    rw [hn] at hrun
    exact ⟨pool, hrun⟩
  have hrun : arrayIndex (.fixed address bits) mode s =
      if s.modes.isOn mode then effectiveAddress (.fixed address bits) s
      else exec (Exec.build (Build.constant address.toNat s.arch.addressWidth)) s := by
    show (if s.modes.isOn mode = true then _ else _ : Step Formula) s = _
    split <;> rfl
  rw [hrun]
  split
  · have hwrap := wrap_toInt64 s.arch.addressWidth_le h
    obtain ⟨pool, hbuild⟩ := hconstant (wrap s.arch.addressWidth
      address.toInt64.toInt) (by rw [hwrap, truncate_of_lt h])
    have haddress : effectiveAddress (.fixed address bits) s =
        (exec (Exec.build (Build.constant (wrap s.arch.addressWidth
          address.toInt64.toInt) s.arch.addressWidth)) >>= fun f => pure f) s := rfl
    refine ⟨pool, ?_⟩
    rw [haddress, run_bind, hbuild]
    rfl
  · exact hconstant _ (truncate_of_lt h)

/-- The view looks at the present of the engine alone, and at formulas that may read
memory. Root registers are bound to words of their widths there, and the memory array is
an array over the addresses. -/
structure View.Watches (V : View) (e : Engine) : Prop where
  reads : ¬ V.bare
  scope_eq : e.scope = V.scope
  only : ∀ {v}, V.admits v → v = e.valuation
  registers : ∀ reg, e.arch.Has reg → reg.isRoot = true → ∀ id,
    e.symbolic.registers[reg.id]? = some id →
    ∃ f value, e.symbolic.formula? id = some f ∧ V.Gives f reg.bits value
  wellFormed : e.array.WellFormed V.scope
  array : e.array.isArray = true
  width_eq : e.array.width = e.arch.addressWidth

namespace View.Watches

variable {V : View} {e : Engine} {s : Frame}

theorem admits (h : V.Watches e) : V.admits e.valuation := by
  obtain ⟨v, hv⟩ := V.nonempty
  rw [← h.only hv]
  exact hv

theorem evaluate (h : V.Watches e) {value : Nat} (hf : V.Gives f width value) :
    e.evaluate f = value := by
  rw [Engine.evaluate, Formula.value_eq_eval]
  exact hf.eval_eq h.admits

theorem quieted (h : V.Watches s.engine) (pool : Pool) {array : Option Formula}
    (harray : (s.quieted pool array).array = s.array) :
    V.Watches (s.quieted pool array).engine := by
  refine ⟨h.reads, h.scope_eq, h.only, h.registers, ?_, ?_, ?_⟩ <;> rw [harray]
  · exact h.wellFormed
  · exact h.array
  · exact h.width_eq

theorem rootFormula (h : V.Watches e) (hroot : e.arch.Has root) (hisRoot : root.isRoot = true)
    (rules : Rules) :
    ∃ old, V.Forms rules (e.symbolic.registerFormula e.machine root) root.bits old := by
  unfold registerFormula registerBinding?
  rw [← beq_iff_eq.1 hisRoot]
  cases hbound : e.symbolic.registers[root.id]? with
  | none => exact ⟨_, Forms.constant hroot.wordWidth _⟩
  | some id =>
    obtain ⟨f, value, hf, hgives⟩ := h.registers root hroot hisRoot id hbound
    obtain ⟨x, hx, rfl⟩ := expression_of_formula? hf
    simp only [Option.bind_eq_bind, Option.bind_some, hx, if_pos hisRoot]
    exact ⟨value, .pure hgives⟩

/-- A register that is assigned a formula reads as the value of the formula, whatever the
rest of its root is. -/
theorem run_assign (h : V.Watches s.engine) (hreg : s.arch.Has reg)
    (hzero : s.arch.isZeroRegister reg = false) {n : Nat} (hf : V.Gives f reg.bits n)
    (comment : String) (htaint : Taints taint) :
    ∃ b s', assign (.register reg) f comment taint s = .ok b s' ∧ s.Keeps s' ∧
      s'.machine.register reg = n := by
  obtain ⟨root, hroot, hisRoot, hbits⟩ := hreg.root
  have hrootHas := Architecture.has_of_register? hroot
  have hlow := (hrootHas.whole hisRoot).1
  obtain ⟨old, hold⟩ := h.rootFormula hrootHas hisRoot s.modes.rules
  obtain ⟨rootFormula, -, hgivesOld⟩ := hold.answers trivial
  -- the machine whose root has the value that the engine has a formula for
  let m := s.machine.setRegister root old
  have hm : m.register root = old := register_setRegister hisRoot hlow hgivesOld.lt _
  rw [← hm] at hold
  obtain ⟨merged, hmerged, hgives⟩ := (Forms.mergeRegister hreg hroot hold hf).answers trivial
  obtain ⟨b, pool, s₁, -, s', hrun, hs₁, hlike, -⟩ :=
    run_assign_register hzero hroot hisRoot hmerged hgives.width_eq comment htaint
  have hkeeps := ((Keeps.withPool s pool).trans hs₁.keeps).trans (.of_like hlike)
  have hmachine : s'.machine = s.machine.setRegister root
      ((m.setRegister reg n).register root) := by
    rw [hlike.engine.machine, hs₁.engine, ← h.evaluate hgives]
    rfl
  have hsame : (s.machine.setRegister root
      ((m.setRegister reg n).register root)).register reg = (m.setRegister reg n).register reg := by
    rw [register_eq_slice hreg hroot hisRoot hbits,
      register_setRegister hisRoot hlow (register_lt _ _),
      ← register_eq_slice hreg hroot hisRoot hbits]
  refine ⟨b, s', hrun, hkeeps, ?_⟩
  rw [hmachine, hsame, Machine.register, root_setRegister, if_pos rfl]
  exact hreg.read_write hf.lt _

/-! Loads. -/

theorem loadBytes (h : V.Watches e) (hmode : e.modes.isOn .memoryArray = true) {bytes : Nat}
    (hpos : 1 ≤ bytes) (hmax : bytes ≤ maxBytes)
    (hfits : address.toNat + bytes ≤ modulus e.arch.addressWidth) (rules : Rules) :
    V.Forms rules
      (Build.loadBytes (.constant address.toNat e.arch.addressWidth) bytes e.array) (bytes * 8)
      (ofBytes ((addressesFrom address bytes).map e.found)) := by
  have hindex : (Formula.constant address.toNat e.arch.addressWidth).Means V.scope
      (Formula.WellFormed V.scope) e.arch.addressWidth fun _ => address.toNat :=
    ⟨⟨e.arch.addressWidth_range, by omega⟩, rfl, rfl, fun _ _ => rfl⟩
  have harray : e.array.ArrayOf V.scope (Formula.WellFormed V.scope) e.arch.addressWidth
      fun v => e.array.readArray v :=
    ⟨h.wellFormed, h.array, h.width_eq, fun _ _ _ => rfl⟩
  have hfound := e.found_of_array hmode fun place =>
    (h.wellFormed.formed.eval_lt_and (V.fits h.admits)).2 place
  refine (Build.Denotes.loadBytes (Formula.WellFormed.hereditary V.scope)
    e.arch.addressWidth_range hindex harray hpos hmax).mono id fun f hf => ?_
  refine ⟨hf.kept, hf.word, hf.width_eq.trans (mul_comm _ _), fun hv => ?_, fun hbare =>
    absurd hbare h.reads⟩
  rw [hf.eval_eq _ (V.fits hv), h.only hv, ofBytes_eq_ofDigits, addressesFrom, List.map_map,
    List.map_map]
  refine congrArg _ (List.map_congr_left fun i hi => ?_)
  have hlt := List.mem_range.1 hi
  have hlim : modulus e.arch.addressWidth ≤ 2 ^ 64 := modulus_mono e.arch.addressWidth_le
  have hplace := Access.toNat_place (show address.toNat + i < 2 ^ 64 by omega)
  rw [Function.comp_apply, Function.comp_apply, hfound, hplace, truncate_of_lt (by omega)]

/-- A load from bytes without formulas finds what is in memory, or what the memory array
has in its place. -/
theorem run_load (h : V.Watches s.engine) (hclear : s.engine.Clear address (bits / 8))
    (hpos : 1 ≤ bits / 8) (hmax : bits / 8 ≤ maxBytes)
    (hfits : s.modes.isOn .memoryArray = true →
      address.toNat + bits / 8 ≤ modulus s.arch.addressWidth) :
    ∃ f s', load (.fixed address bits) s = .ok f s' ∧ s.Keeps s' ∧ V.Watches s'.engine ∧
      V.Gives f (bits / 8 * 8)
        (ofBytes ((addressesFrom address (bits / 8)).map s.engine.found)) := by
  cases hmode : s.modes.isOn .memoryArray with
  | false =>
    obtain ⟨f, hf, hgives⟩ := (hclear.memoryFormula hmode hpos hmax V s.modes.rules
      (s.modes.isOn .alignedMemory)).answers trivial
    obtain ⟨pool, hrun⟩ := run_build hf
    refine ⟨f, s.withPool pool, ?_, .withPool s pool, h.quieted pool rfl, hgives⟩
    rw [Step.run_load hmode, hrun]
    rfl
  | true =>
    have hlt := hfits hmode
    obtain ⟨pool, hindex⟩ := run_arrayIndex_fixed
      (show address.toNat < modulus s.arch.addressWidth by omega) bits .symbolizeLoad
    obtain ⟨f, hf, hgives⟩ := (h.loadBytes hmode hpos hmax hlt s.modes.rules).answers trivial
    obtain ⟨pool', harray⟩ := Engine.run_arrayLoad (e := (s.withPool pool).engine) hf
    refine ⟨f, s.quieted pool' (some s.array), ?_, .of_engine rfl rfl (.refl _) rfl rfl,
      h.quieted pool' rfl, hgives⟩
    rw [run_load_array hmode, run_bind, hindex]
    show exec (Engine.arrayLoad _ (bits / 8)) (s.withPool pool) = _
    unfold exec
    rw [harray]
    rfl

end View.Watches

/-! Instructions that load. -/

/-- The instruction loads the bytes at an address into a register of as many bytes, that is
neither the program counter nor a zero register. -/
structure Instruction.Loads (arch : Architecture) (dst : Register) (address : Address)
    (inst : Instruction) : Prop where
  operation : arch.isX86 = true ∧ X86.operation? inst.opcode = some .mov ∨
    arch = .aarch64 ∧ AArch64.operation? inst.opcode = some .ldr
  operands : inst.operands = [.register dst, .memory (.fixed address dst.bits)]
  has : arch.Has dst
  whole : dst.bits % 8 = 0
  counter : arch.isProgramCounter dst = false
  zero : arch.isZeroRegister dst = false

namespace Instruction.Loads

variable {inst : Instruction} {dst : Register} {arch : Architecture}

/-- Either load reads the bytes, and assigns the register their formula. -/
theorem semantics (h : inst.Loads arch dst address) (hs : s.instruction.operands = inst.operands) :
    ∃ x comment, arch.semantics? inst.opcode = some (complete x) ∧ ∀ {f s₁ b s₂},
      load (.fixed address dst.bits) s = .ok f s₁ → f.width = dst.bits →
      assign (.register dst) f comment
        (assignTaint (.register dst) (.memory (.fixed address dst.bits))) s₁ = .ok b s₂ →
      x s = .ok () s₂ := by
  rw [h.operands] at hs
  have hdiscard : ∀ {x : Step Bool} {b s₁ s₂}, x s₁ = .ok b s₂ → discard x s₁ = .ok () s₂ := by
    intro x b s₁ s₂ hx
    show (x >>= fun _ => pure ()) s₁ = _
    rw [run_bind, hx]
    rfl
  rcases h.operation with ⟨hx86, hop⟩ | ⟨harm, hop⟩
  · refine ⟨mov, "MOV operation", by rw [semantics?_x86 hx86, hop]; rfl, ?_⟩
    intro f s₁ b s₂ hload _ hassign
    have hread : readSized (.memory (.fixed address dst.bits)) dst.bits =
        load (.fixed address dst.bits) := if_neg (fun hne => hne rfl)
    rw [mov, run_bind, run_operand, hs]
    simp only [List.getElem?_cons_zero, run_bind, run_operand, hs, List.getElem?_cons_succ, bits,
      hread, hload]
    exact hdiscard hassign
  · refine ⟨AArch64.ldr, "LDR operation", by rw [harm, semantics?_aarch64, hop]; rfl, ?_⟩
    intro f s₁ b s₂ hload hwidth hassign
    have hresize : Build.resize f dst.bits = pure f := by
      simp [Build.resize, hwidth]
    rw [AArch64.ldr, run_bind, run_operand, hs]
    simp only [List.getElem?_cons_zero, run_bind, run_operand, hs, List.getElem?_cons_succ, bits,
      Step.read, hload, hresize]
    exact hdiscard hassign

end Instruction.Loads

/-- A load from bytes without formulas gives the register what is found there. -/
theorem Engine.process_load {V : View} (h : V.Watches e) {inst : Instruction} {dst : Register}
    (hload : inst.Loads e.arch dst address) (hclear : e.Clear address (dst.bits / 8))
    (hfits : e.modes.isOn .memoryArray = true →
      address.toNat + dst.bits / 8 ≤ modulus e.arch.addressWidth) :
    ∃ s, process ⟨e, inst⟩ = .ok none s ∧ s.machine.register dst =
      ofBytes ((addressesFrom address (dst.bits / 8)).map e.found) := by
  have hfixed : ∀ op ∈ inst.operands, ∀ access, op = .memory access →
      access.isComputed = false := by
    intro op hop access haccess
    have hmem : op ∈ [register dst, .memory (.fixed address dst.bits)] := hload.operands ▸ hop
    subst haccess
    obtain rfl : access = .fixed address dst.bits := by simpa using hmem
    rfl
  have hbits := hload.has.wordBits
  have hwhole := hload.whole
  obtain ⟨x, comment, hsemantics, hx⟩ := hload.semantics (s := start ⟨e, inst⟩) rfl
  obtain ⟨f, s₁, hread, hkeeps, hwatches, hgives⟩ := View.Watches.run_load (s := start ⟨e, inst⟩)
    h hclear (by omega) (by unfold maxBytes; omega) hfits
  rw [show dst.bits / 8 * 8 = dst.bits by omega] at hgives
  obtain ⟨b, s₂, hassign, hkeeps₂, hvalue⟩ := hwatches.run_assign
    (hkeeps.arch.symm ▸ hload.has) (hkeeps.arch.symm ▸ hload.zero) hgives comment
    (taints_assignTaint (.register dst) (.memory (.fixed address dst.bits)))
  obtain ⟨s', hprocess, hregister, -⟩ := run_process_complete hsemantics hfixed
    (hx hread hgives.width_eq hassign) (hkeeps.trans hkeeps₂)
  exact ⟨s', hprocess, (hregister dst hload.counter).trans hvalue⟩

/-! Engines that actions lead to. -/

namespace Action

/-- Every engine that actions lead to is watched by the view of its present. -/
theorem run_watches {context : Context} {given : List Formula} (session : Session context given)
    (arch : Architecture) (modes : Modes) (hknown : ∀ action ∈ actions, action.Known) :
    (run { arch, modes, context } actions).arch = arch ∧
      ∃ V : View, V.Watches (run { arch, modes, context } actions) := by
  obtain ⟨hkept, -⟩ := (Engine.turns_run True { arch, modes, context } [] actions hknown).kept
    ⟨session.wellFormed.1, by simp, .empty ..⟩
  obtain ⟨scope, -, hwell⟩ := run_wellFormed (Engine.wellFormed_new session arch modes) actions
  generalize run { arch, modes, context } actions = e at hkept hwell
  have hgrounded := hkept.grounded
  have hsymbolic : e.symbolic.WellFormed e.scope := hwell.context.scope_eq ▸ hwell.symbolic
  have honly : ∀ {v}, (e.present hkept.bounded False).admits v → v = e.valuation := by
    rintro ⟨var, byte⟩ ⟨hvar, hbyte⟩
    exact congr (congrArg Valuation.mk hvar) (hbyte id)
  refine ⟨hwell.arch_eq, e.present hkept.bounded False, id, rfl, honly, ?_, ?_,
    hgrounded.indexed.array, hgrounded.indexed.width_eq⟩
  · intro reg hreg hroot id hid
    obtain ⟨x, hx, other, -, hother, hisRoot, hotherKnown, hwidth, hword⟩ :=
      hgrounded.registers reg.id id hid
    have hparent : reg.id = other.parent := hother.symm.trans (beq_iff_eq.1 hisRoot)
    obtain rfl := (hotherKnown.has hreg hroot hparent).eq_of_id hreg hother
    refine ⟨x.formula, x.formula.eval e.valuation, ?_, hsymbolic.expressions id x hx,
      hword trivial, hwidth, fun hv => ?_, False.elim⟩
    · unfold formula?
      rw [hx]
      rfl
    · rw [honly hv]
  · unfold Engine.array
    cases harray : e.symbolic.array with
    | some f => exact hsymbolic.array f harray
    | none => exact e.arch.addressWidth_range

end Action

/-- In every engine that actions lead to, in every mode: once bytes are set, a load from
among them answers, and gives its register the little-endian number of these bytes, each
replaced by the byte that the memory array covers it with, if memory is one array and has
one stored there. So it gives the number of the bytes that were set if memory is no array,
or if nothing was stored into the array at the addresses that are read. -/
theorem load_after_setMemory {context : Context} {given : List Formula}
    (session : Session context given) {arch : Architecture} {modes : Modes} {actions : List Action}
    (hknown : ∀ action ∈ actions, action.Known) {start : Address} {data : List UInt8}
    (hspan : start.toNat + data.length ≤ 2 ^ 64) {e : Engine}
    (he : e = (Action.run { arch, modes, context } actions).setMemory start data)
    {inst : Instruction} {dst : Register} {address : Address}
    (hload : inst.Loads arch dst address) (hstart : start.toNat ≤ address.toNat)
    (hend : address.toNat + dst.bits / 8 ≤ start.toNat + data.length)
    (hfits : e.modes.isOn .memoryArray = true →
      address.toNat + dst.bits / 8 ≤ 2 ^ arch.addressWidth) :
    ∃ s, Step.process ⟨e, inst⟩ = .ok none s ∧
      s.machine.register dst = Machine.ofBytes
        (((data.drop (address.toNat - start.toNat)).take (dst.bits / 8)).mapIdx fun i byte =>
          (e.cover? (address + i.toUInt64)).getD byte) ∧
      (e.modes.isOn .memoryArray = false ∨ (∀ i < dst.bits / 8,
          e.array.stored? e.valuation (address.toNat + i) = none) →
        s.machine.register dst =
          Machine.ofBytes ((data.drop (address.toNat - start.toNat)).take (dst.bits / 8))) := by
  have hrun : e = Action.run { arch, modes, context } (actions ++ [.setMemory start data]) := by
    rw [he, Action.run, Action.run, List.foldl_append]
    rfl
  have hall : ∀ action ∈ actions ++ [.setMemory start data], action.Known := by
    intro action haction
    rcases List.mem_append.1 haction with hbefore | hlast
    · exact hknown action hbefore
    · obtain rfl := List.mem_singleton.1 hlast
      trivial
  obtain ⟨harch, V, hwatches⟩ := Action.run_watches session arch modes hall
  rw [← hrun] at harch hwatches
  have hclear := (Action.run { arch, modes, context } actions).clear_setMemory hspan hstart hend
    (hload.has.size hload.whole)
  have hfound := (Action.run { arch, modes, context } actions).map_found_setMemory hspan hstart hend
  rw [← he] at hclear hfound
  have hlimit : arch.addressWidth ≤ Word.limit := arch.addressWidth_range.2
  obtain ⟨s, hprocess, hvalue⟩ := Engine.process_load hwatches (harch.symm ▸ hload) hclear
    (by rw [harch, Word.modulus_eq hlimit]; exact hfits)
  rw [hfound] at hvalue
  refine ⟨s, hprocess, hvalue, fun huncovered => ?_⟩
  rw [hvalue]
  refine congrArg Machine.ofBytes (List.ext_getElem (by simp) fun i hi hi' => ?_)
  have hlt : i < dst.bits / 8 := by
    rw [List.length_take] at hi'
    omega
  have hcover : e.cover? (address + i.toUInt64) = none := by
    unfold Engine.cover?
    rcases huncovered with hmode | hstored
    · rw [hmode, if_neg Bool.false_ne_true]
    · rw [Access.toNat_place (by omega), hstored i hlt, Option.map_none, ite_self]
  rw [List.getElem_mapIdx, hcover, Option.getD_none]

/-! A byte that is stored into the array, and then set. -/

def storeFive : Instruction :=
  .decoded 0x400000 7 59 [.memory (.fixed 0x1000 8), .immediate ⟨5, 8⟩] "mov byte ptr [0x1000], 5"

def loadByte (address : Address) : Instruction :=
  .decoded 0x400007 7 59 [.register X86.accumulatorByte, .memory (.fixed address 8)] ""

/-- Memory is one array, a byte is stored into it, and bytes are set from there on. -/
def storedThenSet (data : List UInt8) : Engine :=
  (Action.run (.new .x86_64)
    [.setMode .memoryArray true, .symbolizeRegister X86.accumulatorByte,
      .process storeFive]).setMemory 0x1000 data

theorem loadByte_loads (address : Address) :
    (loadByte address).Loads .x86_64 accumulatorByte address where
  operation := .inl ⟨rfl, (by decide +kernel : operation? 59 = some .mov)⟩
  operands := by
    rfl
  has := accumulatorByte_has
  whole := by decide +kernel
  counter := by decide +kernel
  zero := rfl

/-- The byte above the one that was stored is loaded as it was set. -/
theorem load_after_setMemory_above :
    ∃ s, Step.process ⟨storedThenSet [0x2a, 0x2b], loadByte 0x1001⟩ = .ok none s ∧
      s.machine.register X86.accumulatorByte = 0x2b := by
  have hbits : X86.accumulatorByte.bits = 8 := by decide +kernel
  have hknown : ∀ action ∈ ([.setMode .memoryArray true, .symbolizeRegister X86.accumulatorByte,
      .process storeFive] : List Action), action.Known := by
    intro action haction
    have hcases : action = .setMode .memoryArray true ∨
        action = .symbolizeRegister X86.accumulatorByte ∨ action = .process storeFive := by
      simpa using haction
    rcases hcases with rfl | rfl | rfl
    · trivial
    · trivial
    · exact Instruction.decoded_two (Operand.known_fixed _ _) trivial
  have hstored : (storedThenSet [0x2a, 0x2b]).array.stored?
      (storedThenSet [0x2a, 0x2b]).valuation 0x1001 = none := by decide +kernel
  have hspan : (0x1000 : Address).toNat + ([0x2a, 0x2b] : List UInt8).length ≤ 2 ^ 64 := by decide
  obtain ⟨s, hprocess, -, hvalue⟩ := load_after_setMemory .start hknown hspan
    (e := storedThenSet [0x2a, 0x2b]) rfl (loadByte_loads 0x1001) (by decide)
    (by rw [hbits]; decide) (fun _ => by rw [hbits]; decide)
  refine ⟨s, hprocess, (hvalue (.inr fun i hi => ?_)).trans (by rw [hbits]; rfl)⟩
  obtain rfl : i = 0 := by
    rw [hbits] at hi
    omega
  exact hstored

/-- The byte that was stored is loaded as it was stored, though it was set after that. -/
theorem stored_byte_covers :
    (storedThenSet [0x2a]).machine.byte 0x1000 = 0x2a ∧
      (Step.after (Step.process ⟨storedThenSet [0x2a], loadByte 0x1000⟩)).machine.register
        X86.accumulatorByte = 5 := by decide +kernel

end Concolic
