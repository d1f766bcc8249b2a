import Concolic.Engine
import Concolic.Proofs.Places

/-
  The concrete and the symbolic state agree.

  In an engine that agrees (`Engine.Agrees`), every bound root register, every
  bound byte and every whole write that is kept has the concrete value that its
  formula has under the variables. Then the formula of every register and of
  every access can be built, and it has the concrete value of what it describes
  (`registerFormula`, `memoryFormula`).

  With `sized`, whole writes are kept and have one of the sizes that a later
  write can displace; without it the mode that keeps them is off.
-/

namespace Concolic

open Build Context Symbolic Architecture

namespace Engine

def RegisterAgrees (e : Engine) (reg : Register) : Prop :=
  ∀ id, e.symbolic.registers[reg.id]? = some id → ∃ f, e.symbolic.formula? id = some f ∧
    e.context.Gives f reg.bits (e.machine.register reg)

def ByteAgrees (e : Engine) (address : Address) : Prop :=
  ∀ cell, e.symbolic.memory[address]? = some cell →
    ∃ f, e.symbolic.formula? cell.expression = some f ∧ f.OverVariables e.scope ∧
      cell.byte * 8 + 7 < f.width ∧
      Word.slice (cell.byte * 8 + 7) (cell.byte * 8) (e.context.evaluate f) =
        (e.machine.byte address).toNat

def WriteAgrees (e : Engine) (w : AlignedWrite) : Prop :=
  w.bytes ∈ alignedSizes ∧ ∃ f, e.symbolic.formula? w.expression = some f ∧
    e.context.Gives f (w.bytes * 8) (e.machine.value w.address w.bytes)

theorem evaluate_eq {e : Engine} {f : Formula} (h : f.OverVariables e.scope) :
    e.evaluate f = e.context.evaluate f := by
  rw [evaluate, Formula.value_eq_eval, evaluate_eq_eval h]
  rfl

/-- Everything bound has the concrete value of what it is bound to. -/
structure Agrees (sized : Prop) (e : Engine) : Prop where
  bounded : e.Bounded
  noArray : e.modes.isOn .memoryArray = false
  keeps : e.modes.isOn .alignedMemory = true → sized
  registers : ∀ reg, e.arch.Has reg → reg.isRoot = true → e.RegisterAgrees reg
  bytes : ∀ address, e.ByteAgrees address
  writes : sized → ∀ w ∈ e.symbolic.aligned, e.WriteAgrees w

theorem agrees_new {context : Context} {given : List Formula} (session : Session context given)
    (arch : Architecture) {modes : Modes} (harray : modes.isOn .memoryArray = false) {sized : Prop}
    (haligned : modes.isOn .alignedMemory = true → sized) :
    ({ arch, modes, context } : Engine).Agrees sized where
  bounded := session.wellFormed.1
  noArray := harray
  keeps := haligned
  registers reg _ _ id hid := by simp at hid
  bytes address cell hcell := by simp at hcell
  writes _ w hw := by simp at hw

end Engine

namespace Engine.Agrees

variable {sized : Prop} {e : Engine} {reg : Register} {value : Formula}

section

variable (h : e.Agrees sized)

include h

theorem showsRegisters : (view h.bounded).ShowsRegisters e.arch e.symbolic e.machine := by
  intro reg hreg hroot id hid
  obtain ⟨f, hf, hgives⟩ := h.registers reg hreg hroot id hid
  exact ⟨f, hf, gives_view.2 hgives⟩

/-- The formula of every register exists and has the register's value. -/
theorem registerFormula (hreg : e.arch.Has reg) (rules : Rules) :
    ∃ f, Answers rules (e.symbolic.registerFormula e.machine reg) (.ok f) ∧
      e.context.Gives f reg.bits (e.machine.register reg) :=
  answers_view (h.showsRegisters.registerFormula hreg fun _ => rfl)

theorem mergeRegister (hvalue : value.OverVariables e.scope) (rules : Rules) :
    Ensures rules (e.symbolic.mergeRegister e.arch e.machine reg value)
      (Formula.OverVariables e.scope) := by
  refine mergeRegister_ensures (fun hc => (Ensures.call hc.children).mono fun _ hf => hf.1) hvalue
    fun root hroot => ?_
  obtain ⟨f, hf, hgives⟩ := h.registerFormula (has_of_register? hroot) rules
  exact .of_answers hf hgives.overVariables

/-- By the merge of a register's own value its root keeps its value. -/
theorem mergeRegister_self (hreg : e.arch.Has reg)
    (hvalue : e.context.Gives value reg.bits (e.machine.register reg))
    (hmerge : reg.isRoot = true ∨ reg.merge = .preserve) (rules : Rules) :
    ∃ root f, e.arch.register? reg.parent = some root ∧ root.isRoot = true ∧
      Answers rules (e.symbolic.mergeRegister e.arch e.machine reg value) (.ok f) ∧
      e.context.Gives f root.bits (e.machine.register root) := by
  obtain ⟨root, hroot, hisRoot, -⟩ := hreg.root
  have hold : (view h.bounded).Forms rules (e.symbolic.registerFormula e.machine root)
      root.bits (e.machine.register root) :=
    h.showsRegisters.registerFormula (has_of_register? hroot) fun _ => rfl
  obtain ⟨f, hf, hgives⟩ := answers_view
    (View.Forms.mergeRegister hreg hroot hold (gives_view.2 hvalue))
  rw [Machine.register_writeBack hreg hroot hisRoot hmerge] at hgives
  exact ⟨root, f, hroot, hisRoot, hf, hgives⟩

/-! Memory. -/

theorem showsByte (rules : Rules) (address : Address) :
    (view h.bounded).Forms rules (e.symbolic.byteFormula e.machine address) 8
      (e.machine.byte address).toNat := by
  refine .byteFormula (fun _ => rfl) fun cell hcell => ?_
  obtain ⟨f, hf, hover, hrest⟩ := h.bytes address cell hcell
  exact ⟨f, _, hf, gives_view.2 (gives_evaluate hover), hrest⟩

theorem aligned_gives (hsized : sized) {address : Address} {bytes id : Nat}
    (hid : e.symbolic.aligned? address bytes = some id) :
    ∃ x, e.symbolic.expressions[id]? = some x ∧
      e.context.Gives x.formula (bytes * 8) (e.machine.value address bytes) := by
  obtain ⟨w, hw, rfl⟩ := Option.map_eq_some_iff.1 hid
  have hplace := List.find?_some hw
  simp only [Bool.and_eq_true, beq_iff_eq] at hplace
  obtain ⟨rfl, rfl⟩ := hplace
  obtain ⟨-, f, hf, hgives⟩ := h.writes hsized w (List.mem_of_find?_eq_some hw)
  obtain ⟨x, hx, rfl⟩ := expression_of_formula? hf
  exact ⟨x, hx, hgives⟩

/-- The formula of every access of 1 to 16 bytes exists and has its value. -/
theorem memoryFormula (rules : Rules) {access : Access} (hpos : 1 ≤ access.bytes)
    (hmax : access.bytes ≤ Machine.maxBytes) :
    ∃ f, Answers rules
        (e.symbolic.memoryFormula (e.modes.isOn .alignedMemory) e.machine access) (.ok f) ∧
      e.context.Gives f (access.bytes * 8) (e.machine.accessValue access) := by
  have hbytes := answers_view (View.Forms.memoryBytes (h.showsByte rules) hpos hmax)
  unfold Symbolic.memoryFormula
  rw [if_neg (by omega)]
  cases hkeep : e.modes.isOn .alignedMemory with
  | false => exact hbytes
  | true =>
    simp only [if_true]
    cases hid : e.symbolic.aligned? access.address access.bytes with
    | none => exact hbytes
    | some id =>
      obtain ⟨x, hx, hgives⟩ := h.aligned_gives (h.keeps hkeep) hid
      refine ⟨x.formula, ?_, hgives⟩
      simp only [expression, hx]
      exact .pure _

/-- The formula of any access, if it exists, is over the variables. -/
theorem memoryFormula_ensures (rules : Rules) (access : Access) :
    Ensures rules (e.symbolic.memoryFormula (e.modes.isOn .alignedMemory) e.machine access)
      (Formula.OverVariables e.scope) := by
  have hbytes : Ensures rules (do
      let parts ← access.byteAddresses.reverse.mapM (e.symbolic.byteFormula e.machine)
      concatMany parts) (Formula.OverVariables e.scope) := by
    refine (Makes.mapM access.byteAddresses.reverse fun address _ => ?_).bind
      fun parts hparts => Ensures.concatMany hparts.2
    exact (h.showsByte rules address).ensures.mono fun f hf => View.Gives.overVariables hf
  unfold Symbolic.memoryFormula
  split
  · exact .throw _
  cases hkeep : e.modes.isOn .alignedMemory with
  | false => exact hbytes
  | true =>
    simp only [if_true]
    cases hid : e.symbolic.aligned? access.address access.bytes with
    | none => exact hbytes
    | some id =>
      obtain ⟨x, hx, hgives⟩ := h.aligned_gives (h.keeps hkeep) hid
      simp only [expression, hx]
      exact .pure hgives.overVariables

end

end Engine.Agrees

end Concolic
