import Concolic.Proofs.Lockstep.Upkeep

/-
  The expressions of an instruction account for what it changes.

  An instruction lists the expressions that it makes, in the order of their numbers,
  and every place that it changes is one that a listed expression was assigned to
  (`Frame.Accounts`). Each recording keeps this, and taint is set only where something
  was recorded, so it holds at the end of every instruction, and also where one fails,
  unless the store of an array in place of a word is cut short (`Frame.process_accounts`).
  Whatever is recorded, the state stays one that the formulas can be read off
  (`Frame.process_sound`).
-/

namespace Concolic

open Step AArch64 Access Machine

variable {origin : Origin} {place : Place} {f : Formula} {m : Machine} {bytes words : Prop}
  {comment : String}

/-! Places. -/

/-- What is written to the place has no value there: it is the root of the zero registers. -/
abbrev Architecture.Discards (arch : Architecture) (place : Place) : Prop :=
  arch = .aarch64 ∧ place = .root AArch64.xzr

/-- The place has the same value, binding and taint in both engines. The taint of the zero
register is not looked at. -/
structure Engine.SameAt (e e' : Engine) (place : Place) : Prop where
  value : e'.machine.valueAt place = e.machine.valueAt place
  cell : e'.symbolic.cell? place = e.symbolic.cell? place
  taint : e.arch.Discards place ∨ e'.taint.isPlace place = e.taint.isPlace place

theorem Engine.SameAt.trans {a b c : Engine} (harch : b.arch = a.arch) (h₁ : a.SameAt b place)
    (h₂ : b.SameAt c place) : a.SameAt c place := by
  refine ⟨h₂.value.trans h₁.value, h₂.cell.trans h₁.cell, ?_⟩
  rcases h₂.taint with hzero | htaint₂
  · exact .inl (harch ▸ hzero)
  · rcases h₁.taint with hzero | htaint₁
    · exact .inl hzero
    · exact .inr (htaint₂.trans htaint₁)

/-- The zero registers are what lies in the root of the zero registers. -/
theorem Register.Known.parent_eq_xzr {reg : Register} (h : reg.Known) :
    reg.parent = xzr ↔ reg.id = xzr ∨ reg.id = wzr := by
  obtain ⟨other, hother⟩ := h
  have hall : ∀ reg ∈ other.registers, reg.parent = xzr ↔ reg.id = xzr ∨ reg.id = wzr := by
    cases other <;> decide +kernel
  exact hall reg hother.mem_registers

theorem Architecture.discards_of_isZeroRegister {arch : Architecture} {reg : Register}
    (h : arch.isZeroRegister reg = true) (hreg : reg.Known)
    (hcovers : (Operand.register reg).Covers place) : arch.Discards place := by
  simp only [isZeroRegister, Bool.and_eq_true, Bool.or_eq_true, beq_iff_eq] at h
  cases place with
  | byte address => exact hcovers.elim
  | root key =>
    obtain rfl : reg.parent = key := hcovers
    exact ⟨h.1, congrArg Place.root (hreg.parent_eq_xzr.2 h.2)⟩

/-- What is recorded for a destination covers its places. -/
theorem Operand.WrittenAs.covers {dst : Operand} (h : dst.WrittenAs origin) :
    dst.Covers place ↔ origin.Covers place := by
  cases dst with
  | immediate imm => exact h.elim
  | register reg =>
    cases origin with
    | register root =>
      cases place with
      | byte address => exact Iff.rfl
      | root key =>
        show reg.parent = key ↔ root.id = key
        rw [show root.id = reg.parent from h]
    | memory access => exact h.elim
    | volatile => exact h.elim
  | memory access =>
    cases origin with
    | memory other =>
      obtain rfl : other = access := h
      cases place <;> exact Iff.rfl
    | register root => exact h.elim
    | volatile => exact h.elim

namespace Frame

variable {s₀ s s' : Frame}

/-- What is stored is not stored in the zero register. -/
theorem Stores.not_discards (h : s.Stores f origin m) (hplace : origin.Covers place) :
    ¬ s.arch.Discards place := by
  rintro ⟨harch, rfl⟩
  cases h with
  | root has isRoot width_eq known parent_eq nonZero =>
    have hzero := known.parent_eq_xzr.1 (parent_eq.trans hplace)
    simp only [Architecture.isZeroRegister, harch, beq_self_eq_true, Bool.true_and,
      Bool.or_eq_false_iff, beq_eq_false_iff_ne] at nonZero
    exact hzero.elim nonZero.1 nonZero.2
  | memory => exact hplace
  | volatile => exact hplace

/-- A place that the origin does not cover is as it was before the recording. -/
theorem Records.sameAt (h : s.Records f origin comment m s') (hstores : s.Stores f origin m)
    (hplace : ¬ origin.Covers place) : s.engine.SameAt s'.engine place where
  value := by
    rw [h.engine]
    cases hstores with
    | volatile => rfl
    | root has isRoot width_eq => exact valueAt_setRegister isRoot _ hplace
    | memory width_eq whole => exact valueAt_setValue _ hplace
  cell := by
    exact (h.updates.cell? place).trans (Symbolic.cell?_bindOrigin _ _ _ hplace)
  taint := by
    refine .inr ?_
    rw [h.engine]
    rfl

/-- A listed expression was assigned to the place. -/
def Covers (s : Frame) (place : Place) : Prop := ∃ x, s.Lists x ∧ x.origin.Covers place

theorem Follows.covers (h : s.Follows s') (hs : s.Covers place) : s'.Covers place := by
  obtain ⟨x, hx, hplace⟩ := hs
  obtain ⟨y, hy, hcore⟩ := h.lists hx
  exact ⟨y, hy, Expression.origin_of_core hcore ▸ hplace⟩

/-- The instruction of the second frame lists the expressions that were made since the
first, and these account for what has changed. -/
structure Accounts (s₀ s : Frame) : Prop where
  grows : s₀.symbolic.Grows s.symbolic
  list : s.instruction.expressions.toList =
    List.range' s₀.symbolic.expressions.size
      (s.symbolic.expressions.size - s₀.symbolic.expressions.size)
  covers : ∀ place, s₀.engine.SameAt s.engine place ∨ s.Covers place

section

variable (h : s₀.Accounts s) (harch : s.arch = s₀.arch)

include h harch

/-- What follows a frame that accounts for the changes does so if it lists what is made, and
accounts for what changes then. -/
theorem Accounts.next (hs : s.Follows s') (hlist : s'.instruction.expressions.toList =
      List.range' s₀.symbolic.expressions.size
        (s'.symbolic.expressions.size - s₀.symbolic.expressions.size))
    (hcovers : ∀ place, s.engine.SameAt s'.engine place ∨ s'.Covers place) : s₀.Accounts s' := by
  refine ⟨h.grows.trans hs.grows, hlist, fun place => ?_⟩
  rcases hcovers place with hsame | hcovered
  · rcases h.covers place with hsame₀ | hcovered
    · exact .inl (hsame₀.trans harch hsame)
    · exact .inr (hs.covers hcovered)
  · exact .inr hcovered

theorem Accounts.idle (hs : s.Follows s')
    (hlist : s'.instruction.expressions = s.instruction.expressions)
    (hsize : s'.symbolic.expressions.size = s.symbolic.expressions.size)
    (hsame : ∀ place, s.engine.SameAt s'.engine place) : s₀.Accounts s' :=
  h.next harch hs (by rw [hlist, hsize]; exact h.list) fun place => .inl (hsame place)

theorem Accounts.records (hstores : s.Stores f origin m) (hs : s.Records f origin comment m s') :
    s₀.Accounts s' := by
  obtain ⟨x, hlists, horigin, -⟩ := hs.lists
  have hle := h.grows.size_le
  refine h.next harch hs.follows ?_ fun place => ?_
  -- the new expression has the number that comes next in the range
  · rw [hs.instruction, Array.toList_push, h.list, hs.size_eq, Nat.succ_sub hle, List.range'_concat,
      one_mul, Nat.add_sub_cancel' hle]
  · by_cases hplace : origin.Covers place
    · exact .inr ⟨x, hlists, horigin ▸ hplace⟩
    · exact .inl (hs.sameAt hstores hplace)

/-- The taint of what was written may be set. -/
theorem Accounts.retaint {dst : Operand} (hdst : dst.Known) (hwrote : s.Wrote dst) (b : Bool) :
    s₀.Accounts { s with taint := (s.taint.setOperand b dst).2 } := by
  refine h.next harch ⟨rfl, .refl _, .refl _, fun _ h => h⟩ h.list fun place => ?_
  by_cases hplace : dst.Covers place
  · rcases hwrote with ⟨reg, rfl, hzero⟩ | ⟨x, hlists, hwritten⟩
    -- a zero register is written without an expression, but its taint is set
    · exact .inl ⟨rfl, rfl, .inl (Architecture.discards_of_isZeroRegister hzero hdst hplace)⟩
    · exact .inr ⟨x, hlists, hwritten.covers.1 hplace⟩
  · refine .inl ⟨rfl, rfl, .inr ?_⟩
    exact (Taint.isPlace_setOperand _ _ _ _).trans (if_neg hplace)

/-! Every instruction. -/

end

/-- What an instruction keeps up from its start: its expressions account for what changes.
When it fails, then unless a store into the array was cut short. -/
def accounting (s₀ : Frame) (words bytes : Prop) : Upkeep where
  start := s₀
  words := words
  bytes := bytes
  holds := s₀.Accounts
  final := s₀.Accounts
  failed s := s₀.symbolic.Grows s.symbolic ∧
    ((s₀.modes.isOn .memoryArray = true → words) → s₀.Accounts s)

section

variable {words bytes : Prop} (hwords : bytes → words)
  (hbytes : words → bytes ∨ s.modes.isOn .memoryArray = true)

include hwords hbytes

theorem accounting_laws : (s.accounting words bytes).Laws where
  words := hwords
  bytes := hbytes
  final h := h.holds
  failed h := ⟨h.holds.grows, fun _ => h.holds⟩
  quiet h hs := by
    have hfollows := hs.follows
    obtain ⟨pool, array, rfl⟩ := hs
    exact h.holds.idle h.arch hfollows rfl rfl fun _ => ⟨rfl, rfl, .inr rfl⟩
  fresh h hwidens := h.holds.idle h.arch ⟨rfl, hwidens, .refl _, fun _ h => h⟩ rfl rfl
    fun _ => ⟨rfl, rfl, .inr rfl⟩
  record h hstores hs := h.holds.records h.arch hstores hs
  retaint b h hdst hwrote := h.holds.retaint h.arch hdst hwrote b
  stamp {s' id symbolic b} h hs := by
    exact h.holds.idle h.arch (.stamp hs) rfl hs.size fun place => ⟨rfl, hs.cell? place, .inr rfl⟩
  steer {s'} branch taken next pool constraints h _ := by
    have haccounts : s.Accounts (s'.steered branch taken next pool constraints) :=
      h.holds.idle h.arch ⟨rfl, .of_vars rfl, .of_expressions rfl, fun _ h => h⟩ rfl rfl
        fun _ => ⟨rfl, rfl, .inr rfl⟩
    exact ⟨haccounts, haccounts.grows, fun _ => haccounts⟩
  torn {s' f access comment m} h _ hwords hon := by
    refine ⟨h.holds.grows.trans (Symbolic.grows_push (Engine.expressions_assign _ _ _ _)),
      fun harray => ?_⟩
    exact absurd (harray (h.modes ▸ hon)) hwords

variable (hoperands : ∀ op ∈ s.instruction.operands, op.Known)
  (hgrounded : s.Grounded words bytes)

include hoperands hgrounded

theorem execute_accounting :
    Yields (fun _ => (s.start.accounting words bytes).Final)
      (s.start.accounting words bytes).Failed (execute s.start) := by
  have hlaws : (s.start.accounting words bytes).Laws := accounting_laws hwords hbytes
  have hresolve {s' operands} (h : (s.start.accounting words bytes).Held s') :
      s.start.Accounts { s' with instruction.operands := operands } :=
    h.holds.idle h.arch ⟨rfl, .refl _, .refl _, fun _ h => h⟩ rfl rfl fun _ =>
      ⟨rfl, rfl, .inr rfl⟩
  refine hlaws.steps.execute hresolve ⟨⟨rfl, rfl, .refl _, hgrounded⟩, hoperands, ?_⟩
    fun _ _ => hlaws.steps.opens id trivial _
  refine ⟨.refl _, ?_, fun place => .inl ⟨rfl, rfl, .inr rfl⟩⟩
  rw [Nat.sub_self]
  rfl

end

theorem Accounts.listed (h : s₀.Accounts s) (hs : s.Grounded words bytes) : s.Listed := by
  intro id hid
  rw [Array.mem_def, h.list, List.mem_range'_1] at hid
  have hlt : id < s.symbolic.expressions.size := by omega
  rw [Array.getElem?_eq_getElem hlt]
  exact congrArg some (hs.ids id _ (Array.getElem?_eq_getElem hlt))

theorem Settles.grounded (h : s.Settles s') (hs : s.Grounded words bytes) :
    s'.Grounded words bytes := by
  rw [h.engine]
  exact Symbolic.Grounded.fewer hs h.symbolic.toFewer h.symbolic.constraints (.inl h.symbolic.array)

section

variable {words bytes : Prop} (hwords : bytes → words)
  (hbytes : words → bytes ∨ s.modes.isOn .memoryArray = true)
  (hoperands : ∀ op ∈ s.instruction.operands, op.Known)
  (hgrounded : s.Grounded words bytes)

include hwords hbytes hoperands hgrounded

/-- An instruction that is processed was executed, and what the modes do not keep dropped. -/
theorem of_process_eq_ok {fault : Option Fault} (hrun : process s = .ok fault s') :
    ∃ u, execute s.start = .ok fault u ∧ (s.start.accounting words bytes).Final u ∧
      u.Settles s' := by
  have haccounts := execute_accounting hwords hbytes hoperands hgrounded
  rw [run_process] at hrun
  obtain ⟨fault', u, hu, hsettle⟩ := of_bind_eq_ok hrun
  obtain rfl := settle_eq_ok hsettle
  rw [hu] at haccounts
  obtain ⟨s₁, hs₁, hsettles⟩ := run_settle (haccounts.final.listed haccounts.grounded) fault
  rw [hsettle] at hs₁
  cases hs₁
  exact ⟨u, hu, haccounts, hsettles⟩

/-- Whatever becomes of an instruction, the state is grounded and the table has grown. -/
theorem process_sound :
    (s.accounting words bytes).Sound (after (process s)) ∧
      s.symbolic.Grows (after (process s)).symbolic := by
  have hyields := execute_accounting hwords hbytes hoperands hgrounded
  rw [run_process, run_bind]
  revert hyields
  cases execute s.start with
  | error e s' =>
    intro hfailed
    exact ⟨⟨hfailed.arch, hfailed.modes, hfailed.widens, hfailed.grounded⟩, hfailed.failed.1⟩
  | ok fault s' =>
    intro hfinal
    -- what is unbound at the end stays in the table
    have haccounts : s.start.Accounts s' := hfinal.final
    obtain ⟨s₁, hrun, hsettles⟩ := run_settle (haccounts.listed hfinal.grounded) fault
    have hengine := hsettles.engine
    show (s.accounting words bytes).Sound (after (settle fault s')) ∧
      s.symbolic.Grows (after (settle fault s')).symbolic
    rw [hrun]
    refine ⟨⟨?_, ?_, ?_, hsettles.grounded hfinal.grounded⟩,
      haccounts.grows.trans (.of_expressions hsettles.symbolic.expressions)⟩
    · show s₁.arch = _
      rw [hengine]
      exact hfinal.arch
    · show s₁.modes = _
      rw [hengine]
      exact hfinal.modes
    · show s.context.Widens s₁.context
      rw [hengine]
      exact hfinal.widens

/-- Where every expression is kept, the expressions of an instruction account for what it
changes, if it does not fail or no array stands in place of a word when memory is one
array. -/
theorem process_accounts (hkeeps : ∀ x, keeps s.modes x = true)
    (hwhole : (∃ fault s', process s = .ok fault s') ∨
      (s.modes.isOn .memoryArray = true → words)) :
    s.start.Accounts (after (process s)) := by
  have hyields := execute_accounting hwords hbytes hoperands hgrounded
  rw [run_process, run_bind] at hwhole ⊢
  revert hyields hwhole
  cases execute s.start with
  | error e s' =>
    rintro (⟨fault, s₁, hrun⟩ | harray) hfailed
    · cases hrun
    · exact hfailed.failed.2 harray
  | ok fault s' =>
    intro _ hfinal
    have haccounts : s.start.Accounts s' := hfinal.final
    have hmodes : s'.modes = s.modes := hfinal.modes
    obtain ⟨tainted, hrun⟩ := settle_eq (haccounts.listed hfinal.grounded) (hmodes ▸ hkeeps) fault
    show s.start.Accounts (after (settle fault s'))
    rw [hrun]
    exact haccounts.idle hfinal.arch ⟨rfl, .refl _, .refl _, fun _ h => h⟩ rfl rfl
      fun _ => ⟨rfl, rfl, .inr rfl⟩

end

end Frame

end Concolic
