import Concolic.Proofs.Change

/-
  Engines whose formulas have the values of the machine.

  In a coherent engine (`Engine.Coherent`) every bound root register and every bound
  byte has the value that its formula has now, over the present memory. A formula may
  read that memory: then its value can change when memory is written. An engine is
  steady if none of the formulas bound does (`Engine.Steady`).

  Both are cases of an engine that is shown by a view (`View.Shows`): the formula of
  every register and of every access gives the value that the machine has
  (`Shows.registerFormula`, `Shows.memoryFormula`), and it stays so when a formula is
  bound along with its value (`Shows.bindRegister`, `Shows.bindMemory`).
-/

namespace Concolic

open Access (distance)
open Symbolic Architecture Machine Engine Context Word

variable {e : Engine} {x : Expression} {n : Nat} {root : Register} {access : Access} {f : Formula}

/-! Machines. -/

/-- The machines have the same registers of an architecture and the same bytes. -/
structure Machine.Alike (arch : Architecture) (m m' : Machine) : Prop where
  register : ∀ {reg}, arch.Has reg → m.register reg = m'.register reg
  byte : ∀ address, m.byte address = m'.byte address

namespace Machine

variable {arch : Architecture} {m m' m'' : Machine} {reg root : Register}

theorem Alike.refl (m : Machine) : Alike arch m m := ⟨fun _ => rfl, fun _ => rfl⟩

theorem Alike.symm (h : Alike arch m m') : Alike arch m' m :=
  ⟨fun hreg => (h.register hreg).symm, fun address => (h.byte address).symm⟩

theorem Alike.trans (h₁ : Alike arch m m') (h₂ : Alike arch m' m'') : Alike arch m m'' :=
  ⟨fun hreg => (h₁.register hreg).trans (h₂.register hreg),
    fun address => (h₁.byte address).trans (h₂.byte address)⟩

theorem Alike.value (h : Alike arch m m') (start : Address) (bytes : Nat) :
    m.value start bytes = m'.value start bytes := value_congr fun address _ => h.byte address

theorem Alike.setRegister (h : Alike arch m m') (reg : Register) (value : Nat) :
    Alike arch (m.setRegister reg value) (m'.setRegister reg value) := by
  refine ⟨fun {other} hother => ?_, h.byte⟩
  by_cases hsame : reg.parent = other.parent
  · obtain ⟨root, hroot, hself, -⟩ := hother.root
    have hrootHas := has_of_register? hroot
    have hread : root.read (m.root reg.parent) = root.read (m'.root reg.parent) := by
      have hrootSelf : root.parent = other.parent :=
        (beq_iff_eq.1 hself).symm.trans (register?_id hroot)
      have hvalue := h.register hrootHas
      rw [Machine.register, Machine.register, hrootSelf, ← hsame] at hvalue
      exact hvalue
    rw [Machine.register, Machine.register, root_setRegister, root_setRegister, if_pos hsame,
      if_pos hsame]
    exact hother.read_write_congr hroot hread reg value
  · rw [register_setRegister_of_ne hsame, register_setRegister_of_ne hsame]
    exact h.register hother

theorem Alike.setValue (h : Alike arch m m') (start : Address) {bytes : Nat}
    (hmax : bytes ≤ maxBytes) (value : Nat) :
    Alike arch (m.setValue start bytes value) (m'.setValue start bytes value) := by
  refine ⟨fun hreg => ?_, fun address => ?_⟩
  · rw [Machine.register, Machine.register, root_setValue, root_setValue]
    exact h.register hreg
  · rw [byte_setValue hmax, byte_setValue hmax, h.byte]

theorem alike_setRoot (hroot : arch.register? reg.parent = some root)
    (hisRoot : root.isRoot = true) (m : Machine) (value : Nat) :
    Alike arch (m.setRegister root ((m.setRegister reg value).register root))
      (m.setRegister reg value) := by
  have hrootHas := has_of_register? hroot
  have hparent := parent_root hroot hisRoot
  refine ⟨fun {other} hother => ?_, fun _ => rfl⟩
  by_cases hsame : reg.parent = other.parent
  · have hagain := hsame ▸ hroot
    have hbits := (hother.isRoot_and_bits hagain).2
    rw [register_eq_slice hother hagain hisRoot hbits,
      register_eq_slice hother hagain hisRoot hbits,
      register_setRegister hisRoot (hrootHas.whole hisRoot).1 (register_lt _ _)]
  · rw [register_setRegister_of_ne hsame, register_setRegister_of_ne (hparent ▸ hsame)]

end Machine

namespace View

variable {V : View} {rules : Rules}

/-! Registers. -/

/-- A root is bound to a new expression, which gives the value that it gets. -/
theorem ShowsRegisters.bind {m m' : Machine} (h : V.ShowsRegisters e.arch e.symbolic m)
    (hroot : e.arch.Has root) (hisRoot : root.isRoot = true)
    (hx : V.Gives x.formula root.bits (m'.register root))
    (hother : ∀ reg : Register, root.parent ≠ reg.parent → m'.register reg = m.register reg)
    (machine : Machine) :
    V.ShowsRegisters e.arch (e.assign x (.register root) machine).symbolic m' := by
  intro reg hreg hself id hid
  by_cases hsame : reg.id = root.id
  · obtain rfl := hreg.eq_of_id hroot hsame
    simp only [assign, bindOrigin, Std.ExtTreeMap.getElem?_insert_self, Option.some.injEq] at hid
    subst hid
    exact ⟨_, formula?_enter _ x, hx⟩
  · have hcmp : compare root.id reg.id ≠ .eq := mt Std.LawfulEqCmp.eq_of_compare (Ne.symm hsame)
    simp only [assign, bindOrigin, Std.ExtTreeMap.getElem?_insert, if_neg hcmp] at hid
    obtain ⟨f, hf, hgives⟩ := h reg hreg hself id hid
    have hne : root.parent ≠ reg.parent := by
      rw [← beq_iff_eq.1 hisRoot, ← beq_iff_eq.1 hself]
      exact symm hsame
    exact ⟨f, formula?_enter_of_some x hf, (hother reg hne).symm ▸ hgives⟩

/-- The engine is shown by a view: what is bound gives the value that the machine has. -/
structure Shows (V : View) (e : Engine) : Prop where
  bounded : e.Bounded
  scope_eq : e.scope = V.scope
  admits : V.admits e.valuation
  noArray : e.modes.isOn .memoryArray = false
  noWhole : e.modes.isOn .alignedMemory = false
  registers : ∀ reg, e.arch.Has reg → reg.isRoot = true → ∀ id,
    e.symbolic.registers[reg.id]? = some id →
    ∃ f, e.symbolic.formula? id = some f ∧ V.Gives f reg.bits (e.machine.register reg)
  bytes : ∀ (address : Address) (cell : Cell), e.symbolic.memory[address]? = some cell →
    ∃ f value, e.symbolic.formula? cell.expression = some f ∧ V.Gives f f.width value ∧
      cell.byte * 8 + 7 < f.width ∧
      Word.slice (cell.byte * 8 + 7) (cell.byte * 8) value = (e.machine.byte address).toNat

namespace Shows

variable {e e' : Engine} {reg : Register}

section

variable (h : V.Shows e)

include h

theorem evaluate {width value : Nat} (hf : V.Gives f width value) : e.evaluate f = value := by
  rw [Engine.evaluate, Formula.value_eq_eval]
  exact hf.eval_eq h.admits

theorem registerFormula (hreg : e.arch.Has reg) :
    V.Forms rules (e.symbolic.registerFormula e.machine reg) reg.bits (e.machine.register reg) :=
  ShowsRegisters.registerFormula h.registers hreg fun _ => rfl

/-- The root of a register that is written has the value that the write gives it. -/
theorem mergeRegister (hreg : e.arch.Has reg) (hroot : e.arch.register? reg.parent = some root)
    {value : Formula} (hvalue : V.Gives value reg.bits n) :
    V.Forms rules (e.symbolic.mergeRegister e.arch e.machine reg value) root.bits
      ((e.machine.setRegister reg n).register root) :=
  Forms.mergeRegister hreg hroot (h.registerFormula (has_of_register? hroot)) hvalue

/-! Memory. -/

theorem byteFormula (address : Address) :
    V.Forms rules (e.symbolic.byteFormula e.machine address) 8 (e.machine.byte address).toNat :=
  Forms.byteFormula (fun _ => rfl) (h.bytes address)

theorem memoryFormula (hpos : 1 ≤ access.bytes) (hmax : access.bytes ≤ maxBytes) :
    V.Forms rules (e.symbolic.memoryFormula (e.modes.isOn .alignedMemory) e.machine access)
      (access.bytes * 8) (e.machine.accessValue access) := by
  unfold Symbolic.memoryFormula
  rw [if_neg (by omega), h.noWhole]
  exact Forms.memoryBytes h.byteFormula hpos hmax

/-! Changes. -/

/-- An engine with fewer bindings is shown by a view that gives no fewer formulas. -/
theorem carry {V' : View} (hw : e.Weakens e')
    (hV : ∀ {f width value}, V.Gives f width value → V'.Gives f width value)
    (hscope : e'.scope = V'.scope) (hadmits : V'.admits e'.valuation) : V'.Shows e' where
  bounded := hw.bounded h.bounded
  scope_eq := hscope
  admits := hadmits
  noArray := by rw [hw.modes]; exact h.noArray
  noWhole := by rw [hw.modes]; exact h.noWhole
  registers reg hreg hroot id hid := by
    obtain ⟨f, hf, hgives⟩ := h.registers reg (hw.arch ▸ hreg) hroot id (hw.registers _ _ hid)
    exact ⟨f, hw.formulas _ f hf, hw.machine.symm ▸ hV hgives⟩
  bytes address cell hcell := by
    obtain ⟨f, value, hf, hgives, hrest⟩ := h.bytes address cell (hw.memory _ _ hcell)
    exact ⟨f, value, hw.formulas _ f hf, hV hgives, hw.machine.symm ▸ hrest⟩

theorem weaken (hw : e.Weakens e') (hvars : e'.vars = e.vars) : V.Shows e' := by
  refine h.carry hw id ?_ ?_
  · rw [← h.scope_eq]
    unfold Context.scope
    rw [hvars]
  · have hsame : e'.valuation = e.valuation := by
      unfold Engine.valuation Context.valuation
      rw [hw.machine, show e'.context.variableValue = e.context.variableValue by
        funext id; unfold variableValue; rw [hvars]]
    rw [hsame]
    exact h.admits

theorem bindRegister (hroot : e.arch.Has root) (hisRoot : root.isRoot = true)
    (hx : V.Gives x.formula root.bits n) :
    V.Shows (e.assign x (.register root) (e.machine.setRegister root n)) where
  __ := h
  registers := by
    have hvalue := register_setRegister hisRoot (hroot.whole hisRoot).1 hx.lt e.machine
    exact ShowsRegisters.bind h.registers hroot hisRoot (hvalue.symm ▸ hx)
      (fun reg hne => register_setRegister_of_ne hne _ _) _
  bytes address cell hcell := by
    obtain ⟨f, value, hf, hgives⟩ := h.bytes address cell hcell
    exact ⟨f, value, formula?_enter_of_some x hf, hgives⟩

/-- The bytes of an access are bound to a new expression and get its bytes, where the
view looks at every memory. -/
theorem bindMemory (hsteady : ∀ v byte, V.admits v → V.admits { v with byte })
    (hx : V.Gives x.formula (access.bytes * 8) n) :
    V.Shows (e.assign x (.memory access) (e.machine.setValue access.address access.bytes n)) := by
  have hmax : access.bytes ≤ maxBytes := by
    have hrange := hx.width_range.2
    unfold limit at hrange
    unfold maxBytes
    omega
  have hextends := e.extends_assign x (.memory access)
    (e.machine.setValue access.address access.bytes n)
  have hnew := e.formula?_assign x (.memory access)
    (e.machine.setValue access.address access.bytes n)
  refine ⟨h.bounded, h.scope_eq, hsteady _ _ h.admits, h.noArray, h.noWhole, ?_, ?_⟩
  · intro reg hreg hroot id hid
    simp only [assign, bindOrigin, registers_bindMemory] at hid
    obtain ⟨f, hf, hgives⟩ := h.registers reg hreg hroot id hid
    refine ⟨f, hextends.formulas _ f hf, ?_⟩
    simp only [assign, Machine.register, root_setValue]
    exact hgives
  · intro address cell hcell
    simp only [assign, bindOrigin, memory_bindMemory _ _ _ hmax] at hcell
    simp only [assign, byte_setValue hmax]
    by_cases hin : distance access.address address < access.bytes
    · rw [if_pos hin, Option.some.injEq] at hcell
      subst hcell
      rw [if_pos hin]
      refine ⟨x.formula, n, hnew, hx.width_eq.symm ▸ hx, ?_, slice_byte _ _⟩
      rw [hx.width_eq]
      simp only
      omega
    · rw [if_neg hin] at hcell
      rw [if_neg hin]
      obtain ⟨f, value, hf, hgives⟩ := h.bytes address cell hcell
      exact ⟨f, value, hextends.formulas _ f hf, hgives⟩

end

end Shows

end View

/-! Coherent engines. -/

namespace Engine

/-- The formula is a word of `width` bits over the variables and memory, and has this
value now. -/
structure Backs (e : Engine) (f : Formula) (width value : Nat) : Prop where
  wellFormed : f.WellFormed e.scope
  word : f.isArray = false
  width_eq : f.width = width
  value_eq : e.evaluate f = value

/-- Everything bound has the concrete value of what it is bound to. -/
structure Coherent (e : Engine) : Prop where
  bounded : e.Bounded
  registers : ∀ reg, e.arch.Has reg → reg.isRoot = true → ∀ id,
    e.symbolic.registers[reg.id]? = some id →
    ∃ f, e.symbolic.formula? id = some f ∧ e.Backs f reg.bits (e.machine.register reg)
  bytes : ∀ (address : Address) (cell : Cell), e.symbolic.memory[address]? = some cell →
    ∃ f value, e.symbolic.formula? cell.expression = some f ∧ e.Backs f f.width value ∧
      cell.byte * 8 + 7 < f.width ∧
      Word.slice (cell.byte * 8 + 7) (cell.byte * 8) value = (e.machine.byte address).toNat

/-- No formula that is bound reads the memory array. -/
structure Steady (e : Engine) : Prop where
  registers : ∀ reg, e.arch.Has reg → reg.isRoot = true → ∀ id f,
    e.symbolic.registers[reg.id]? = some id → e.symbolic.formula? id = some f → f.Memoryless
  bytes : ∀ (address : Address) (cell : Cell) (f : Formula),
    e.symbolic.memory[address]? = some cell →
    e.symbolic.formula? cell.expression = some f → f.Memoryless

/-- The view of the present: the values of the variables, and the bytes of memory unless
`steady`. -/
def present (e : Engine) (hb : e.Bounded) (steady : Prop) : View where
  scope := e.scope
  bare := False
  admits v := v.var = e.valuation.var ∧ (¬ steady → v.byte = e.valuation.byte)
  fits {v} hv id width hid := by
    rw [hv.1]
    exact hb.fits e.machine.byte id width hid
  nonempty := ⟨e.valuation, rfl, fun _ => rfl⟩

variable {e : Engine}

theorem present_steady {hb : e.Bounded} {steady : Prop} (hs : steady) (v : Valuation)
    (byte : Address → UInt8) (hv : (e.present hb steady).admits v) :
    (e.present hb steady).admits { v with byte } := ⟨hv.1, fun h => absurd hs h⟩

theorem Backs.gives {width value : Nat} (h : e.Backs f width value) (hb : e.Bounded)
    {steady : Prop} (hs : steady → f.Memoryless) : (e.present hb steady).Gives f width value := by
  refine ⟨h.wellFormed, h.word, h.width_eq, fun {v} hv => ?_, False.elim⟩
  rw [← h.value_eq, evaluate, Formula.value_eq_eval]
  by_cases hsteady : steady
  · refine Formula.OverVariables.eval_congr (fun id width _ => ?_) ⟨h.wellFormed, hs hsteady⟩
    rw [hv.1]
  · have hsame : v = e.valuation := by
      obtain ⟨hvar, hbyte⟩ := hv
      exact congr (congrArg Valuation.mk hvar) (hbyte hsteady)
    rw [hsame]

/-- A coherent engine is shown by the view of the present. -/
theorem Coherent.shows (h : e.Coherent) {steady : Prop} (hs : steady → e.Steady)
    (harray : e.modes.isOn .memoryArray = false) (hwhole : e.modes.isOn .alignedMemory = false) :
    (e.present h.bounded steady).Shows e where
  bounded := h.bounded
  scope_eq := rfl
  admits := ⟨rfl, fun _ => rfl⟩
  noArray := harray
  noWhole := hwhole
  registers reg hreg hroot id hid := by
    obtain ⟨f, hf, hholds⟩ := h.registers reg hreg hroot id hid
    exact ⟨f, hf, hholds.gives _ fun hsteady => (hs hsteady).registers reg hreg hroot id f hid hf⟩
  bytes address cell hcell := by
    obtain ⟨f, value, hf, hholds, hrest⟩ := h.bytes address cell hcell
    exact ⟨f, value, hf, hholds.gives _ fun hsteady => (hs hsteady).bytes _ _ f hcell hf, hrest⟩

variable {sized : Prop}

theorem Agrees.coherent (h : e.Agrees sized) : e.Coherent where
  bounded := h.bounded
  registers reg hreg hroot id hid := by
    obtain ⟨f, hf, hgives⟩ := h.registers reg hreg hroot id hid
    have hover := hgives.overVariables
    exact ⟨f, hf, hover.wellFormed, hover.memoryless.not_array, hgives.width_eq,
      (evaluate_eq hover).trans hgives.value_eq⟩
  bytes address cell hcell := by
    obtain ⟨f, hf, hover, hlt, hvalue⟩ := h.bytes address cell hcell
    exact ⟨f, _, hf, ⟨hover.wellFormed, hover.memoryless.not_array, rfl, evaluate_eq hover⟩, hlt,
      hvalue⟩

theorem Agrees.steady (h : e.Agrees sized) : e.Steady where
  registers reg hreg hroot id f hid hf := by
    obtain ⟨g, hg, hgives⟩ := h.registers reg hreg hroot id hid
    obtain rfl := Option.some.inj (hf.symm.trans hg)
    exact hgives.overVariables.memoryless
  bytes address cell f hcell hf := by
    obtain ⟨g, hg, hover, -⟩ := h.bytes address cell hcell
    obtain rfl := Option.some.inj (hf.symm.trans hg)
    exact hover.memoryless

end Engine

theorem View.Shows.coherent {V : View} (h : V.Shows e) : e.Coherent where
  bounded := h.bounded
  registers reg hreg hroot id hid := by
    obtain ⟨f, hf, hgives⟩ := h.registers reg hreg hroot id hid
    exact ⟨f, hf, h.scope_eq ▸ hgives.wellFormed, hgives.word, hgives.width_eq, h.evaluate hgives⟩
  bytes address cell hcell := by
    obtain ⟨f, value, hf, hgives, hrest⟩ := h.bytes address cell hcell
    exact ⟨f, value, hf, ⟨h.scope_eq ▸ hgives.wellFormed, hgives.word, rfl, h.evaluate hgives⟩,
      hrest⟩

/-! A test for coherence. -/

instance Formula.decidableWellFormed (scope : Scope) : ∀ f : Formula, Decidable (f.WellFormed scope)
  | .constant value width =>
    inferInstanceAs (Decidable (WordWidth width ∧ value < Word.modulus width))
  | .var id width => inferInstanceAs (Decidable (WordWidth width ∧ scope id = some width))
  | .memory width => inferInstanceAs (Decidable (WordWidth width))
  | .arith op left right =>
    have := decidableWellFormed scope left
    have := decidableWellFormed scope right
    inferInstanceAs (Decidable ((arith op left right).Lawful ∧ _ ∧ _))
  | .compare op left right =>
    have := decidableWellFormed scope left
    have := decidableWellFormed scope right
    inferInstanceAs (Decidable ((compare op left right).Lawful ∧ _ ∧ _))
  | .unary op operand =>
    have := decidableWellFormed scope operand
    inferInstanceAs (Decidable ((unary op operand).Lawful ∧ _))
  | .extract high low operand =>
    have := decidableWellFormed scope operand
    inferInstanceAs (Decidable ((extract high low operand).Lawful ∧ _))
  | .concat high low =>
    have := decidableWellFormed scope high
    have := decidableWellFormed scope low
    inferInstanceAs (Decidable ((concat high low).Lawful ∧ _ ∧ _))
  | .zeroExtend width operand =>
    have := decidableWellFormed scope operand
    inferInstanceAs (Decidable ((zeroExtend width operand).Lawful ∧ _))
  | .signExtend width operand =>
    have := decidableWellFormed scope operand
    inferInstanceAs (Decidable ((signExtend width operand).Lawful ∧ _))
  | .ite cond onTrue onFalse =>
    have := decidableWellFormed scope cond
    have := decidableWellFormed scope onTrue
    have := decidableWellFormed scope onFalse
    inferInstanceAs (Decidable ((ite cond onTrue onFalse).Lawful ∧ _ ∧ _ ∧ _))
  | .select array index =>
    have := decidableWellFormed scope array
    have := decidableWellFormed scope index
    inferInstanceAs (Decidable ((select array index).Lawful ∧ _ ∧ _))
  | .store array index value =>
    have := decidableWellFormed scope array
    have := decidableWellFormed scope index
    have := decidableWellFormed scope value
    inferInstanceAs (Decidable ((store array index value).Lawful ∧ _ ∧ _ ∧ _))

/-- The registers have the values of their formulas, and no byte has a formula. -/
def Engine.passes (e : Engine) : Bool :=
  e.symbolic.memory.isEmpty && e.symbolic.registers.toList.all fun p =>
    (e.arch.register? p.1).all fun reg => (e.symbolic.formula? p.2).any fun f =>
      decide (f.WellFormed e.scope) && !f.isArray && f.width == reg.bits &&
        e.evaluate f == e.machine.register reg

theorem Engine.coherent_of_passes (hb : e.Bounded) (h : e.passes = true) : e.Coherent := by
  obtain ⟨hmemory, hall⟩ := Bool.and_eq_true_iff.1 h
  refine ⟨hb, fun reg hreg _ id hid => ?_, fun address cell hcell => ?_⟩
  · have hmem : (reg.id, id) ∈ e.symbolic.registers.toList :=
      Std.ExtTreeMap.mem_toList_iff_getElem?_eq_some.2 hid
    have hlook : e.arch.register? reg.id = some reg := hreg
    have hcheck := List.all_eq_true.1 hall _ hmem
    rw [hlook, Option.all_some] at hcheck
    obtain ⟨f, hf, hvalue⟩ := Option.any_eq_true _ _ |>.1 hcheck
    simp only [Bool.and_eq_true, decide_eq_true_eq, Bool.not_eq_true', beq_iff_eq] at hvalue
    obtain ⟨⟨⟨hwell, hword⟩, hwidth⟩, hvalue⟩ := hvalue
    exact ⟨f, hf, hwell, hword, hwidth, hvalue⟩
  · rw [Std.ExtTreeMap.isEmpty_iff.1 hmemory] at hcell
    simp at hcell

end Concolic
