import Concolic.Proofs.Registers
import Concolic.Proofs.View

/-
  The formulas of registers and of memory.

  A register is a part of its root, and its formula that part of what the root is bound
  to (`Forms.registerFormula`); a byte is a part of an expression, and memory is put
  together from its bytes (`Forms.byteFormula`, `Forms.memoryBytes`). A write to a
  register is a formula for its root, put together from the value and the parts of the
  root around it (`Forms.mergeRegister`). Where nothing is bound the concrete value is
  taken.

  All this is said of the values in a view. The variables of a context are a view of
  their own (`Context.view`), and so are all values of them, one by one (`View.single`).
-/

namespace Concolic

open Word Architecture Machine Register Symbolic Access

variable {arch : Architecture} {f : Formula} {m machine : Machine} {value width n : Nat}
  {reg root : Register} {scope : Scope} {s : Symbolic} {rules : Rules} {v : Valuation}
  {x : Build Formula} {h : v.Fits scope}

/-! Views of the variables. -/

namespace View

/-- The view of one valuation, and of formulas over the variables. -/
def single {v : Valuation} {scope : Scope} (h : v.Fits scope) : View where
  scope := scope
  bare := True
  admits u := u = v
  fits hu := hu ▸ h
  nonempty := ⟨v, rfl⟩

theorem Gives.overVariables (hf : (single h).Gives f width value) : f.OverVariables scope :=
  ⟨hf.wellFormed, hf.memoryless trivial⟩

theorem gives_single (hf : f.OverVariables scope) (hwidth : f.width = width) :
    (single h).Gives f width (f.eval v) :=
  ⟨hf.wellFormed, hf.memoryless.not_array, hwidth, fun hu => hu ▸ rfl, fun _ => hf.memoryless⟩

theorem Forms.answers_single {value : Valuation → Nat}
    (h : ∀ {v} (hv : v.Fits scope), (single hv).Forms rules x width (value v)) {v₀ : Valuation}
    (hv₀ : v₀.Fits scope) :
    ∃ f, Build.Answers rules x (.ok f) ∧ f.OverVariables scope ∧ f.width = width ∧
      ∀ v : Valuation, v.Fits scope → f.eval v = value v := by
  obtain ⟨f, hf, hgives⟩ := (h hv₀).answers trivial
  refine ⟨f, hf, hgives.overVariables, hgives.width_eq, fun v hv => ?_⟩
  obtain ⟨g, hg, hother⟩ := (h hv).answers trivial
  obtain rfl := Except.ok.inj (hf.unique hg)
  exact hother.eval_eq rfl

end View

namespace Context

variable {ctx : Context} {h : ctx.Bounded} {f : Formula} {width value : Nat}

def view (h : ctx.Bounded) : View := .single (h.fits fun _ => 0)

theorem gives_view : (view h).Gives f width value ↔ ctx.Gives f width value := by
  constructor
  · intro hf
    have hover : f.OverVariables ctx.scope := View.Gives.overVariables hf
    exact ⟨hover, hf.width_eq, (evaluate_eq_eval hover _).trans (hf.eval_eq rfl)⟩
  · rintro ⟨hover, hwidth, rfl⟩
    rw [evaluate_eq_eval hover fun _ => 0]
    exact View.gives_single hover hwidth

theorem answers_view (hx : (view h).Forms rules x width value) :
    ∃ f, Build.Answers rules x (.ok f) ∧ ctx.Gives f width value := by
  obtain ⟨f, hf, hgives⟩ := hx.answers trivial
  exact ⟨f, hf, gives_view.1 hgives⟩

theorem answers_choice (hb : ctx.Bounded) (rules : Rules) {c g : Formula}
    (hc : c.OverVariables ctx.scope) (hbit : c.width = 1) (hf : ctx.Gives f width value)
    (hg : ctx.Gives g width value) :
    ∃ r, Build.Answers rules (Build.ite c f g) (.ok r) ∧ ctx.Gives r width value := by
  have hgives : (view hb).Gives c 1 (ctx.evaluate c) := gives_view.2 (hbit ▸ gives_evaluate hc)
  have hlt : ctx.evaluate c < 2 := hgives.lt
  obtain ⟨holds, hholds⟩ : ∃ holds : Bool, ctx.evaluate c = holds.toNat := by
    rcases (by omega : ctx.evaluate c = 0 ∨ ctx.evaluate c = 1) with h | h
    · exact ⟨false, h⟩
    · exact ⟨true, h⟩
  rw [hholds] at hgives
  exact answers_view ((View.Forms.ite hgives (gives_view.2 hf) (gives_view.2 hg)).of_eq rfl
    (ite_self _))

end Context

/-! Parts of registers. -/

theorem Register.read_eq_slice (h : 1 ≤ reg.bits) (value : Nat) :
    reg.read value = slice reg.high reg.low value := by
  rw [read, slice, show reg.high - reg.low + 1 = reg.bits by
    unfold high; omega]

theorem Register.high_lt (h : arch.Has reg) :
    reg.low ≤ reg.high ∧ reg.high < reg.parentBits ∧ reg.high - reg.low + 1 = reg.bits := by
  have hpos := h.bits_pos
  have hbound := h.bound
  unfold high
  omega

namespace Machine

theorem register_lt (machine : Machine) (reg : Register) :
    machine.register reg < modulus reg.bits := truncate_lt _ _

theorem register_eq_slice (h : arch.Has reg) (hroot : arch.register? reg.parent = some root)
    (hisRoot : root.isRoot = true) (hbits : root.bits = reg.parentBits) (machine : Machine) :
    machine.register reg = slice reg.high reg.low (machine.register root) := by
  have hlow := ((has_of_register? hroot).whole hisRoot).1
  have hid : root.parent = reg.parent := by
    rw [← register?_id hroot]
    exact (beq_iff_eq.1 hisRoot).symm
  obtain ⟨hle, hlt, -⟩ := high_lt h
  have hlim : reg.parentBits ≤ limit := le_trans h.parentBits_le (by decide)
  rw [register, read_eq_slice h.bits_pos, register, hid, Register.read, hlow, hbits]
  refine slice_congr hle hlt hlim ?_
  rw [truncate, Nat.mod_mod, Nat.shiftRight_zero]

end Machine

/-- A root has the value last written to it. -/
theorem Machine.register_setRegister_truncate (hroot : root.isRoot = true) (hlow : root.low = 0)
    (machine : Machine) (value : Nat) :
    (machine.setRegister root value).register root = truncate root.bits value := by
  rw [register, root_setRegister, if_pos rfl, write, if_pos hroot,
    Register.read, hlow, Nat.shiftRight_zero, truncate_of_lt (truncate_lt _ _)]

theorem Machine.register_setRegister (hroot : root.isRoot = true) (hlow : root.low = 0)
    (hvalue : value < modulus root.bits) (machine : Machine) :
    (machine.setRegister root value).register root = value := by
  rw [register_setRegister_truncate hroot hlow, truncate_of_lt hvalue]

theorem Machine.register_setRegister_of_ne {reg other : Register} (h : reg.parent ≠ other.parent)
    (m : Machine) (value : Nat) : (m.setRegister reg value).register other = m.register other := by
  rw [register, root_setRegister, if_neg h, ← register]

/-- A write that keeps the rest of the root changes the bits of the register. -/
theorem Register.testBit_write (hpart : reg.isRoot = false) (hmerge : reg.merge = .preserve)
    (hbits : reg.bits ≤ limit) (parent value i : Nat) :
    (reg.write parent value).testBit i =
      if reg.low ≤ i ∧ i < reg.low + reg.bits then value.testBit (i - reg.low)
      else parent.testBit i := by
  simp only [write, hpart, hmerge, Bool.false_eq_true, if_false, Nat.testBit_or, Nat.testBit_shiftLeft, testBit_truncate hbits, ones,
    modulus_eq hbits]
  by_cases hlow : reg.low ≤ i
  · by_cases hhigh : i < reg.low + reg.bits
    · simp [hlow, hhigh, show i - reg.low < reg.bits by omega]
    · simp [hhigh, show ¬ i - reg.low < reg.bits by omega]
  · simp [hlow]

theorem Register.testBit_write_read (hpart : reg.isRoot = false) (hmerge : reg.merge = .preserve)
    (hlim : reg.bits ≤ limit) (parent i : Nat) :
    (reg.write parent (reg.read parent)).testBit i = parent.testBit i := by
  rw [testBit_write hpart hmerge hlim]
  split
  · next hin =>
    rw [read, testBit_truncate hlim, Nat.testBit_shiftRight, Nat.add_sub_cancel' hin.1,
      decide_eq_true (by omega), Bool.true_and]
  · rfl

/-- A register that is written back to itself leaves its root, if the rest is kept. -/
theorem Machine.register_writeBack (hreg : arch.Has reg)
    (hroot : arch.register? reg.parent = some root) (hisRoot : root.isRoot = true)
    (hmerge : reg.isRoot = true ∨ reg.merge = .preserve) (m : Machine) :
    (m.setRegister reg (m.register reg)).register root = m.register root := by
  by_cases hself : reg.isRoot = true
  · obtain rfl := hreg.root_eq_self hroot hself
    exact register_setRegister hisRoot (hreg.whole hisRoot).1 (register_lt _ _) m
  · have hparent := parent_root hroot hisRoot
    have hvalue : m.register root = root.read (m.root reg.parent) := by rw [register, hparent]
    rw [hvalue, register, root_setRegister, if_pos hparent.symm]
    exact congrArg root.read (Nat.eq_of_testBit_eq (testBit_write_read
      (Bool.eq_false_iff.2 hself) (hmerge.resolve_left hself) hreg.wordWidth.2 _))

/-- The formula of an expression. -/
def Symbolic.formula? (s : Symbolic) (id : Nat) : Option Formula :=
  s.expressions[id]?.map Expression.formula

theorem Symbolic.expression_of_formula? {id : Nat} (h : s.formula? id = some f) :
    ∃ x, s.expressions[id]? = some x ∧ x.formula = f :=
  Option.map_eq_some_iff.1 h

theorem Symbolic.makes_found {sure : Prop} {id : Nat} {x : Expression}
    {k : Expression → Build Formula} {post : Formula → Prop} (hx : s.expressions[id]? = some x)
    (hk : Build.Makes rules sure (k x) post) :
    Build.Makes rules sure (ofExcept (s.expression id) >>= k) post := by
  have hpure : Build.Makes rules sure (pure x) (· = x) := .pure rfl
  simp only [expression, hx]
  exact hpure.bind fun y hy => hy ▸ hk

namespace View

variable {V : View} {rules : Rules}

section

variable {arch : Architecture} {reg root : Register} {f value : Formula} {old n : Nat}
  (hreg : arch.Has reg) (hroot : V.Gives f reg.parentBits old)

include hreg hroot

theorem Forms.keepBelow (hvalue : V.Gives value reg.bits n) :
    V.Forms rules (keepBelow reg f value) (reg.bits + reg.low)
      (join reg.low n (truncate reg.low old)) := by
  have hbound := hreg.bound
  have hlim := hreg.parentBits_le
  unfold Symbolic.keepBelow
  by_cases hlow : reg.low = 0
  · rw [if_neg (by simp [hlow])]
    refine (pure hvalue).of_eq (by omega) ?_
    have hnone : truncate 0 old = 0 := Nat.mod_one old
    rw [hlow, hnone, join, Nat.shiftLeft_zero, Nat.or_zero]
  · rw [if_pos hlow]
    refine (extract hroot (Nat.zero_le (reg.low - 1)) (by omega)).bind fun rest hrest => ?_
    have hwidth : reg.low - 1 - 0 + 1 = reg.low := by omega
    rw [slice, hwidth, Nat.shiftRight_zero] at hrest
    exact concat hvalue hrest (by unfold limit; omega)

theorem Forms.keepAbove (hvalue : V.Gives value (reg.bits + reg.low) n) :
    V.Forms rules (keepAbove reg f value) reg.parentBits
      (join (reg.low + reg.bits) (old >>> (reg.low + reg.bits)) n) := by
  have hbound := hreg.bound
  have hpos := hreg.bits_pos
  have hlim := hreg.parentBits_le
  have hlim' : reg.parentBits ≤ limit := le_trans hlim (by decide)
  have hhigh : reg.high + 1 = reg.low + reg.bits := by
    unfold high
    omega
  unfold Symbolic.keepAbove
  by_cases habove : reg.high + 1 < reg.parentBits
  · rw [if_pos habove]
    refine (extract hroot (show reg.high + 1 ≤ reg.parentBits - 1 by omega)
      (by omega)).bind fun rest hrest => ?_
    refine (concat hrest hvalue (by unfold limit; omega)).of_eq (by omega) ?_
    have hupper : slice (reg.parentBits - 1) (reg.high + 1) old = old >>> (reg.low + reg.bits) := by
      apply Nat.eq_of_testBit_eq
      intro i
      rw [testBit_slice (by omega), hhigh, Nat.testBit_shiftRight]
      by_cases hi : i < reg.parentBits - 1 - (reg.low + reg.bits) + 1
      · simp [hi]
      · rw [testBit_of_lt hlim' hroot.lt (by omega), Bool.and_false]
    rw [hupper, add_comm reg.bits]
  · rw [if_neg habove]
    refine (pure hvalue).of_eq (by omega) ?_
    have hnone : old >>> (reg.low + reg.bits) = 0 := by
      apply Nat.eq_of_testBit_eq
      intro i
      rw [Nat.testBit_shiftRight, testBit_of_lt hlim' hroot.lt (by omega), Nat.zero_testBit]
    rw [hnone, join_zero]

end

/-- What a root is after a write to a part of it, put together from its parts. -/
theorem register_setRegister_part (hreg : arch.Has reg)
    (hroot : arch.register? reg.parent = some root) (hisRoot : root.isRoot = true)
    (hbits : root.bits = reg.parentBits) (hpart : reg.isRoot = false)
    (hmerge : reg.merge = .preserve) (m : Machine) (hn : n < modulus reg.bits) :
    (m.setRegister reg n).register root =
      join (reg.low + reg.bits) (m.register root >>> (reg.low + reg.bits))
        (join reg.low n (truncate reg.low (m.register root))) := by
  have hbound := hreg.bound
  have hlim : reg.parentBits ≤ limit := le_trans hreg.parentBits_le (by decide)
  have hlow := ((has_of_register? hroot).whole hisRoot).1
  have hparent := parent_root hroot hisRoot
  have hlower : join reg.low n (truncate reg.low (m.register root)) <
      modulus (reg.low + reg.bits) := by
    rw [add_comm]
    exact join_lt (by omega) hn (truncate_lt _ _)
  apply Nat.eq_of_testBit_eq
  intro i
  rw [testBit_join (by omega) hlower,
    testBit_join (by omega) (truncate_lt _ _), testBit_truncate (by omega),
    Nat.testBit_shiftRight]
  simp only [Machine.register, hparent, root_setRegister, if_true, Register.read, hlow,
    Nat.shiftRight_zero, hbits, testBit_truncate hlim,
    testBit_write hpart hmerge (by omega)]
  by_cases hi : i < reg.low
  · simp [hi, show ¬ reg.low ≤ i by omega, show i < reg.low + reg.bits by omega]
  · by_cases hi' : i < reg.low + reg.bits
    · simp [hi', show reg.low ≤ i by omega, show i < reg.parentBits by omega]
    · simp [hi', show reg.low + reg.bits + (i - (reg.low + reg.bits)) = i by omega]

/-- The root of a register that is written has the value that the write gives it in a
machine `m`, if its formula gives the value that it has there. -/
theorem Forms.mergeRegister (hreg : arch.Has reg) (hroot : arch.register? reg.parent = some root)
    (hold : V.Forms rules (s.registerFormula machine root) root.bits (m.register root))
    {value : Formula} (hvalue : V.Gives value reg.bits n) :
    V.Forms rules (s.mergeRegister arch machine reg value) root.bits
      ((m.setRegister reg n).register root) := by
  obtain ⟨hisRoot, hbits⟩ := hreg.isRoot_and_bits hroot
  have hrootHas := has_of_register? hroot
  have hlow := (hrootHas.whole hisRoot).1
  have hn := hvalue.lt
  have hbound := hreg.bound
  have hlim : root.bits ≤ limit := le_trans hrootHas.wordBits.2 (by decide)
  unfold Symbolic.mergeRegister
  rw [if_neg (by simp [hvalue.width_eq])]
  by_cases hself : reg.isRoot = true
  · rw [if_pos hself]
    obtain rfl := hreg.root_eq_self hroot hself
    exact (pure hvalue).of_eq rfl (register_setRegister hisRoot hlow hn _).symm
  · rw [if_neg hself]
    have hpart : reg.isRoot = false := Bool.eq_false_iff.2 hself
    cases hmerge : reg.merge with
    | zeroExtend =>
      refine (zeroExtend hvalue (by omega) (by omega)).of_eq hbits.symm ?_
      have hwide : n < modulus root.bits := lt_of_lt_of_le hn (modulus_mono (by omega))
      have hparent := parent_root hroot hisRoot
      simp only [Machine.register, hparent, root_setRegister, if_true, write,
        hpart, hmerge, Bool.false_eq_true, if_false, Register.read, hlow, Nat.shiftRight_zero,
        truncate_of_lt hn, truncate_of_lt hwide]
    | preserve =>
      refine Build.Makes.bind (?_ : Build.Makes rules True _ (· = root)) fun found hfound => ?_
      · simp only [Architecture.register, show arch.register? reg.parent = some root from hroot]
        exact .pure rfl
      · subst hfound
        refine hold.bind fun f hf => ?_
        rw [hbits] at hf
        refine (keepBelow hreg hf hvalue).bind fun lower hlower => ?_
        refine (keepAbove hreg hf hlower).of_eq hbits.symm ?_
        exact (register_setRegister_part hreg hroot hisRoot hbits hpart hmerge m hn).symm

theorem Forms.registerFormula {old : Nat} (hword : Formula.WordWidth reg.bits)
    (hfree : s.registers[reg.parent]? = none → machine.register reg = reg.read old)
    (hbound : ∀ id, s.registers[reg.parent]? = some id → reg.Known ∧
      ∃ f, s.formula? id = some f ∧ V.Gives f reg.parentBits old) :
    V.Forms rules (s.registerFormula machine reg) reg.bits (reg.read old) := by
  unfold Symbolic.registerFormula registerBinding?
  cases hid : s.registers[reg.parent]? with
  | none =>
    exact (constant hword _).of_eq rfl
      ((truncate_of_lt (machine.register_lt reg)).trans (hfree hid))
  | some id =>
    obtain ⟨⟨arch, hreg⟩, f, hf, hgives⟩ := hbound id hid
    obtain ⟨x, hx, rfl⟩ := expression_of_formula? hf
    simp only [Option.bind_eq_bind, Option.bind_some, hx]
    split
    · next hself =>
      obtain ⟨hlow, hbits⟩ := hreg.whole hself
      refine (pure hgives).of_eq hbits.symm ?_
      rw [Register.read, hlow, Nat.shiftRight_zero, truncate_of_lt (hbits ▸ hgives.lt)]
    · obtain ⟨hle, hlt, hwidth⟩ := high_lt hreg
      exact (extract hgives hle hlt).of_eq hwidth (read_eq_slice hreg.bits_pos old).symm

/-- What the roots are bound to gives the values that they have in a machine. -/
def ShowsRegisters (V : View) (arch : Architecture) (s : Symbolic) (m : Machine) : Prop :=
  ∀ reg, arch.Has reg → reg.isRoot = true → ∀ id, s.registers[reg.id]? = some id →
    ∃ f, s.formula? id = some f ∧ V.Gives f reg.bits (m.register reg)

/-- The formula of a register gives the value that it has in the machine; where its root is
not bound, in the machine that the value is taken from. -/
theorem ShowsRegisters.registerFormula (h : V.ShowsRegisters arch s m) (hreg : arch.Has reg)
    (hfree : s.registers[reg.parent]? = none → machine.register reg = m.register reg) :
    V.Forms rules (s.registerFormula machine reg) reg.bits (m.register reg) := by
  obtain ⟨root, hroot, hisRoot, hbits⟩ := hreg.root
  have hid : root.id = reg.parent := register?_id hroot
  have hpart : m.register reg = reg.read (m.register root) :=
    (register_eq_slice hreg hroot hisRoot hbits m).trans (read_eq_slice hreg.bits_pos _).symm
  rw [hpart] at hfree ⊢
  refine Forms.registerFormula hreg.wordWidth hfree fun id hbound => ⟨⟨arch, hreg⟩, ?_⟩
  obtain ⟨f, hf, hgives⟩ := h root (has_of_register? hroot) hisRoot id (hid ▸ hbound)
  exact ⟨f, hf, hbits ▸ hgives⟩

/-! Memory. -/

theorem Forms.byteFormula {address : Address}
    (hfree : s.memory[address]? = none → (machine.byte address).toNat = value)
    (hbound : ∀ cell, s.memory[address]? = some cell → ∃ f n,
      s.formula? cell.expression = some f ∧ V.Gives f f.width n ∧ cell.byte * 8 + 7 < f.width ∧
      slice (cell.byte * 8 + 7) (cell.byte * 8) n = value) :
    V.Forms rules (s.byteFormula machine address) 8 value := by
  unfold Symbolic.byteFormula
  cases hcell : s.memory[address]? with
  | none =>
    exact (constant (by decide) _).of_eq rfl
      ((truncate_of_lt (UInt8.toNat_lt _)).trans (hfree hcell))
  | some cell =>
    obtain ⟨f, n, hf, hgives, hlt, hvalue⟩ := hbound cell hcell
    obtain ⟨x, hx, rfl⟩ := expression_of_formula? hf
    exact makes_found hx ((extract hgives (by omega) hlt).of_eq (by omega) hvalue)

theorem Forms.memoryBytes {access : Access}
    (h : ∀ address, V.Forms rules (s.byteFormula machine address) 8 (m.byte address).toNat)
    (hpos : 1 ≤ access.bytes) (hmax : access.bytes ≤ maxBytes) :
    V.Forms rules (do
      let parts ← access.byteAddresses.reverse.mapM (s.byteFormula machine)
      Build.concatMany parts) (access.bytes * 8) (m.accessValue access) := by
  have hlength : access.byteAddresses.length = access.bytes := by
    simp [byteAddresses, addressesFrom]
  refine (ofBytes (fun address _ => h address) (hlength.symm ▸ hpos)
    (hlength.symm ▸ hmax)).of_eq (by rw [hlength]) ?_
  rw [accessValue, value, byteAddresses, min_eq_left hmax, littleEndian_eq_ofBytes]

end View

end Concolic
