import Concolic.Proofs.Operations

/-
  What an instruction changes is found in the list of its expressions.

  In every engine that operations lead to, an instruction lists exactly the expressions
  that it adds to the table, and one of them is an expression of each place that it changes
  (`expressions_account_for_changes`), however the instruction ends. There is one
  exception: where memory is one array and an array was recorded as the value of a
  register, a store of the register binds memory and then fails, before the expression is
  listed (`array_store_unlisted`).
-/

namespace Concolic

open Step Architecture Step

namespace Symbolic

def BindsWords (s : Symbolic) : Prop :=
  ∀ (key id : Nat) (x : Expression), s.registers[key]? = some id →
    s.expressions[id]? = some x → x.formula.isArray = false

theorem Grounded.bindsWords {words bytes : Prop} {arch : Architecture} {scope : Scope}
    {s : Symbolic} (h : s.Grounded False bytes arch scope) (hs : words → s.BindsWords) :
    s.Grounded words bytes arch scope where
  __ := h
  registers key id hid := by
    obtain ⟨x, hx, reg, horigin, hkey, hroot, hknown, hwidth, -⟩ := h.registers key id hid
    exact ⟨x, hx, reg, horigin, hkey, hroot, hknown, hwidth, fun hw => hs hw key id x hid hx⟩

end Symbolic

/-- In every engine that operations lead to, with no expressions left out: if an
instruction does not fail, or memory is not one array, or no register is bound to an array,
then the instruction lists the expressions that it adds to the table, in the order of their
numbers; and every register or byte has the value, the binding and the taint that it had
before (the taint of the zero register is not looked at), or is one that a listed
expression was assigned to. -/
theorem expressions_account_for_changes {arch : Architecture} {modes : Modes} {e : Engine}
    {given : List Formula} (h : Engine.Turns False { arch, modes } [] e given)
    (hsymbolized : e.modes.isOn .onlyOnSymbolized = false)
    (htainted : e.modes.isOn .onlyOnTainted = false) {inst : Instruction}
    (hoperands : ∀ op ∈ inst.operands, op.Known)
    (hwhole : (∃ fault s, process ⟨e, inst⟩ = .ok fault s) ∨
      e.modes.isOn .memoryArray = false ∨ e.symbolic.BindsWords) :
    e.symbolic.expressions.size ≤ (after (process ⟨e, inst⟩)).symbolic.expressions.size ∧
    (after (process ⟨e, inst⟩)).instruction.expressions.toList =
      List.range' e.symbolic.expressions.size
        ((after (process ⟨e, inst⟩)).symbolic.expressions.size - e.symbolic.expressions.size) ∧
    ∀ place, e.SameAt (after (process ⟨e, inst⟩)).engine place ∨
      (after (process ⟨e, inst⟩)).Covers place := by
  have hkept := (h.kept (.start False arch modes)).1
  let words := e.modes.isOn .memoryArray = true ∧ e.symbolic.BindsWords
  have hgrounded : e.Grounded words False := Symbolic.Grounded.bindsWords hkept.grounded And.right
  have hkeeps : ∀ x, keeps e.modes x = true := by
    intro x
    simp [keeps, hsymbolized, htainted]
  have hwords : (∃ fault s, process ⟨e, inst⟩ = .ok fault s) ∨
      (e.modes.isOn .memoryArray = true → words) := by
    rcases hwhole with hok | hoff | hbinds
    · exact .inl hok
    · exact .inr fun hon => by rw [hoff] at hon; cases hon
    · exact .inr fun hon => ⟨hon, hbinds⟩
  have haccounts := Frame.process_accounts (s := ⟨e, inst⟩) False.elim (fun hw => .inr hw.1)
    hoperands hgrounded hkeeps hwords
  exact ⟨haccounts.grows.size_le, haccounts.list, haccounts.covers⟩

/-- An exchange with what cannot be written. -/
def exchangeImmediate : Instruction :=
  .decoded 0x400000 4 100 [.register Architecture.x86_64.stackPointer, .immediate ⟨5, 64⟩]
    "xchg rsp, 5"

/-- The exchange writes the stack pointer, which is symbolic, and fails: what was written
is listed. -/
theorem expressions_account_for_changes_exchangeImmediate :
    ∃ (e : Engine) (given : List Formula) (s : Frame),
      (Engine.Turns False (.new .x86_64) [] e given ∧ after (process ⟨e, exchangeImmediate⟩) = s ∧
        (answer (process ⟨e, exchangeImmediate⟩)).isOk = false ∧
        e.modes.isOn .onlyOnSymbolized = false ∧ e.modes.isOn .onlyOnTainted = false ∧
        e.modes.isOn .memoryArray = false ∧ s.instruction.expressions = #[1] ∧
        s.machine.valueAt (.root Architecture.x86_64.stackPointer.id) ≠
          e.machine.valueAt (.root Architecture.x86_64.stackPointer.id)) ∧
      ∀ place, e.SameAt s.engine place ∨ s.Covers place := by
  have hknown : ∀ op ∈ exchangeImmediate.operands, op.Known :=
    Instruction.decoded_two ⟨_, Architecture.x86_64.stackPointer_has⟩ trivial
  -- the run is evaluated once, and not looked into again
  refine Exists₃.imp (fun e given s h => ⟨h, ?_⟩) ⟨_, _, _, Engine.turns_run _ _ _
    [.symbolizeRegister Architecture.x86_64.stackPointer] (by simp [Action.Known]), rfl,
    by decide +kernel⟩
  obtain ⟨turns, rfl, -, hsymbolized, htainted, harray, -⟩ := h
  exact (expressions_account_for_changes turns hsymbolized htainted hknown (.inr (.inl harray))).2.2

def storePointer : Instruction :=
  .decoded 0x400000 8 59 [.memory (.fixed 0x1000 64), .register Architecture.x86_64.stackPointer] ""

/-- Where memory is one array and this array was recorded as the value of the stack
pointer, a store of the stack pointer adds an expression and binds memory to it, and lists
none. -/
theorem array_store_unlisted :
    ∃ (e : Engine) (given : List Formula) (s : Frame),
      (Engine.Turns False (.new .x86_64) [] e given ∧ after (process ⟨e, storePointer⟩) = s ∧
        (∀ op ∈ storePointer.operands, op.Known) ∧
        e.modes.isOn .onlyOnSymbolized = false ∧ e.modes.isOn .onlyOnTainted = false ∧
        s.instruction.expressions = #[] ∧
        s.symbolic.expressions.size = e.symbolic.expressions.size + 1 ∧
        s.symbolic.cell? (.byte 0x1000) ≠ e.symbolic.cell? (.byte 0x1000)) ∧
      ¬ (e.SameAt s.engine (.byte 0x1000) ∨ s.Covers (.byte 0x1000)) := by
  have hsp := Architecture.x86_64.stackPointer_has
  have start : Engine.Turns False (.new .x86_64) [] _ _ := .none
  have whole := start.next (.performed (.act (.setMode .memoryArray true)) trivial)
  have given := whole.next (.performed .memoryArray trivial)
  refine Exists₃.imp (fun e given s h => ⟨h, ?_⟩) ⟨_, _, _, given.next (.performed
    (.create (.memory 64) (.register Architecture.x86_64.stackPointer) "" none)
    ⟨by decide +kernel, False.elim, fun reg hreg => by cases hreg; exact ⟨_, hsp⟩⟩), rfl,
    Instruction.decoded_two (Operand.known_fixed _ _) ⟨_, hsp⟩, by decide +kernel⟩
  obtain ⟨-, -, -, -, -, hlist, -, hcell⟩ := h
  rintro (hsame | ⟨x, hx, -⟩)
  · exact hcell hsame.cell
  · rw [Frame.Lists, hlist] at hx
    simp at hx

end Concolic
