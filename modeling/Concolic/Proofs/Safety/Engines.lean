import Concolic.Proofs.MemoryArray
import Concolic.Proofs.Safety.Formulas
import Concolic.Proofs.Unbinding

/-
  Engines that hold well-formed formulas only.

  Every formula of the pool, every one that is recorded and the memory array is well
  formed (`Engine.WellFormed`). A formula at hand then has the width of a word, so that
  the formulas of registers and of memory, the new value of a root and the outcomes of a
  branch are built without a fatal error.
-/

namespace Concolic

open Engine Symbolic Build

variable {e : Error} {id : Nat} {s : Symbolic} {x : Expression} {scope : Scope}
  {change : Expression → Expression}

/-! Well-formed engines. -/

/-- The variables fit their widths, and the pool holds well-formed formulas only. -/
structure Context.WellFormed (scope : Scope) (ctx : Context) : Prop where
  scope_eq : ctx.scope = scope
  bounded : ctx.Bounded
  pool : ∀ f, ctx.pool.Has f → f.WellFormed scope

/-- What is recorded is well formed, and so is the memory array. -/
structure Symbolic.WellFormed (scope : Scope) (s : Symbolic) : Prop where
  expressions : ∀ (i : Nat) x, s.expressions[i]? = some x → x.formula.WellFormed scope
  array : ∀ f, s.array = some f → f.WellFormed scope

/-- Every formula that the engine holds is well formed. -/
structure Engine.WellFormed (arch : Architecture) (scope : Scope) (e : Engine) : Prop where
  arch_eq : e.arch = arch
  context : e.context.WellFormed scope
  symbolic : e.symbolic.WellFormed scope

theorem Context.WellFormed.addVariable {ctx : Context} (h : ctx.WellFormed scope) {width : Nat}
    (hw : Formula.WordWidth width) (nickname : Option String) (value : Nat) :
    (ctx.addVariable width nickname value).WellFormed
      (ctx.addVariable width nickname value).scope where
  scope_eq := rfl
  bounded := addVariable_bounded h.bounded hw nickname value
  pool f hf := by
    have hextends := ctx.addVariable_extends width nickname value
    rw [h.scope_eq] at hextends
    exact (h.pool f hf).mono hextends

namespace Symbolic.WellFormed

variable {scope : Scope} {s s' : Symbolic}

theorem mono (h : s.WellFormed scope) {later : Scope} (hle : later.Extends scope) :
    s.WellFormed later :=
  ⟨fun i x hx => (h.expressions i x hx).mono hle, fun f hf => (h.array f hf).mono hle⟩

theorem fewer (h : s.WellFormed scope) (hf : s.Fewer s') (ha : s'.array = s.array ∨
    s'.array = none) : s'.WellFormed scope := by
  refine ⟨fun i x hx => h.expressions i x (hf.expressions ▸ hx), fun f harray => ?_⟩
  rcases ha with ha | ha
  · exact h.array f (ha ▸ harray)
  · rw [ha] at harray
    cases harray

theorem update (h : s.WellFormed scope) (hchange : ∀ x, (change x).formula = x.formula)
    (hrun : s.update id change = .ok s') : s'.WellFormed scope := by
  unfold Symbolic.update at hrun
  split at hrun
  · next old hold =>
    cases hrun
    refine ⟨fun i x hx => ?_, h.array⟩
    rw [Array.getElem?_setIfInBounds] at hx
    split at hx
    · next heq =>
      split at hx
      · cases hx
        rw [hchange]
        exact h.expressions id old hold
      · cases hx
    · exact h.expressions i x hx
  · cases hrun

theorem assign {e : Engine} (h : e.symbolic.WellFormed scope) (hx : x.formula.WellFormed scope)
    (origin : Origin) (machine : Machine) :
    (e.assign x origin machine).symbolic.WellFormed scope := by
  refine ⟨fun i y hy => ?_, fun f hf => h.array f ?_⟩
  · rw [expressions_assign, Array.getElem?_push] at hy
    split at hy
    · cases hy
      exact hx
    · exact h.expressions i y hy
  · rwa [array_assign] at hf

theorem bound (h : s.WellFormed scope) (hx : s.expression id = .ok x) :
    x.formula.WellFormed scope := by
  unfold expression at hx
  split at hx
  · next found hfound =>
    cases hx
    exact h.expressions id _ hfound
  · cases hx

end Symbolic.WellFormed

theorem Symbolic.expression_error (h : s.expression id = .error e) : e.isFatal = false := by
  unfold expression at h
  split at h
  · cases h
  · cases h
    rfl

theorem Symbolic.array_unbind {s s' : Symbolic} (h : s.unbind id = .ok s') :
    s'.array = s.array := by
  unfold unbind at h
  cases hx : s.expression id with
  | error e =>
    rw [hx] at h
    cases h
  | ok x =>
    rw [hx] at h
    simp only [bind, Except.bind] at h
    split at h
    · cases h
      split <;> rfl
    · cases h
      split <;> rfl
    · cases h
      rfl

theorem Symbolic.unbind_error (h : s.unbind id = .error e) : e.isFatal = false := by
  unfold unbind at h
  cases hx : s.expression id with
  | error e' =>
    rw [hx] at h
    cases h
    exact expression_error hx
  | ok x =>
    rw [hx] at h
    simp only [bind, Except.bind] at h
    split at h <;> cases h

theorem Symbolic.update_error (h : s.update id change = .error e) : e.isFatal = false := by
  unfold update at h
  split at h
  · cases h
  · cases h
    rfl

theorem Symbolic.checkOrigin_error {f : Formula} {origin : Origin}
    (h : checkOrigin f origin = .error e) : e.isFatal = false := by
  unfold checkOrigin at h
  split at h
  · split at h
    · cases h
      rfl
    · cases h
  · split at h
    · cases h
      rfl
    · cases h
  · cases h

theorem Architecture.register_error {arch : Architecture} (h : arch.register id = .error e) :
    e.isFatal = false := by
  unfold register at h
  split at h
  · cases h
  · cases h
    rfl

/-! Formulas of registers and memory. -/

namespace Symbolic.WellFormed

variable {sure : Prop} {rules : Rules} {scope : Scope} {s : Symbolic}
  (h : s.WellFormed scope)

include h

theorem registerFormula (machine : Machine) {reg : Register}
    (hw : sure → Formula.WordWidth reg.bits) :
    Safe sure rules scope (s.registerFormula machine reg) (Formula.WellFormed scope) := by
  unfold Symbolic.registerFormula
  split
  · next x hx =>
    obtain ⟨id, -, hid⟩ := Option.bind_eq_some_iff.1 hx
    have hformula := h.expressions id x hid
    exact .ite (fun _ => .pure hformula) fun _ => .extract hformula _ _
  · exact .word hw

theorem mergeRegister (arch : Architecture) (machine : Machine) (reg : Register)
    {value : Formula} (hv : value.WellFormed scope) :
    Safe sure rules scope (s.mergeRegister arch machine reg value) (Formula.WellFormed scope) := by
  refine .ite (fun _ => .throw fun _ => rfl) fun _ => .ite (fun _ => .pure hv) fun _ => ?_
  cases reg.merge with
  | zeroExtend => exact .zeroExtend hv _
  | preserve =>
    -- the root is a register of the architecture, so its value has the width of a word
    have hparent : Safe sure rules scope (ofExcept (arch.register reg.parent)) arch.Has :=
      .ofExcept (fun _ => Architecture.has_of_register) fun _ => Architecture.register_error
    refine hparent.bind fun parent hhas => ?_
    refine (h.registerFormula machine fun _ => hhas.wordWidth).bind fun root hroot => ?_
    have hlower : Safe sure rules scope (keepBelow reg root value) (Formula.WellFormed scope) :=
      .ite (fun _ => (Safe.extract hroot _ _).bind fun _ hrest => .concat hv hrest)
        fun _ => .pure hv
    refine hlower.bind fun lower hlower => ?_
    exact .ite (fun _ => (Safe.extract hroot _ _).bind fun _ hrest => .concat hrest hlower)
      fun _ => .pure hlower

theorem byteFormula (machine : Machine) (address : Address) :
    Safe sure rules scope (s.byteFormula machine address) (Formula.WellFormed scope) := by
  unfold Symbolic.byteFormula
  split
  · next cell _ =>
    have hcell : Safe sure rules scope (ofExcept (s.expression cell.expression))
        fun x => x.formula.WellFormed scope :=
      .ofExcept (fun _ => h.bound) fun _ => expression_error
    exact hcell.bind fun x hx => .extract hx _ _
  · exact .word fun _ => by decide

theorem memoryFormula (keep : Bool) (machine : Machine) (access : Access) :
    Safe sure rules scope (s.memoryFormula keep machine access) fun f =>
      f.WellFormed scope ∧ 1 ≤ access.bytes := by
  refine .ite (fun _ => .throw fun _ => rfl) fun hbytes => ?_
  have hpos : 1 ≤ access.bytes := by omega
  split
  · next id _ =>
    have hid : Safe sure rules scope (ofExcept (s.expression id))
        fun x => x.formula.WellFormed scope :=
      .ofExcept (fun _ => h.bound) fun _ => expression_error
    exact hid.bind fun x hx => .pure ⟨hx, hpos⟩
  · refine (Safe.mapM _ fun address _ => h.byteFormula machine address).bind fun parts hparts => ?_
    exact (Safe.concatMany hparts.2).mono fun f hf => ⟨hf.1, hpos⟩

end Symbolic.WellFormed

/-! The memory array, and the outcomes of a branch. -/

namespace Build.Safe

variable {sure : Prop} {rules : Rules} {scope : Scope} {index value array : Formula}

theorem arrayPlace (hi : index.WellFormed scope) (offset : Nat) :
    Safe sure rules scope (arrayPlace index offset) (Formula.WellFormed scope) :=
  (word fun _ => hi.width_range).bind fun _ hoffset => arith hi .add hoffset

theorem loadBytes (hi : index.WellFormed scope) (count : Nat) (ha : array.WellFormed scope) :
    Safe sure rules scope (loadBytes index count array) fun f =>
      f.WellFormed scope ∧ 1 ≤ count := by
  refine (mapM _ fun i _ => (arrayPlace hi i).bind fun place hplace => select ha hplace).bind
    fun parts hparts => ?_
  refine (concatMany hparts.2).mono fun f hf => ⟨hf.1, ?_⟩
  have hlength := List.length_pos_iff.2 hf.2
  rwa [hparts.1, List.length_reverse, List.length_range] at hlength

theorem storeBytes (hi : index.WellFormed scope) (hv : value.WellFormed scope) (count : Nat)
    (ha : array.WellFormed scope) :
    Safe sure rules scope (storeBytes index value count array) (Formula.WellFormed scope) :=
  foldlM _ (fun i _ _ hf => (arrayPlace hi i).bind fun _ hplace =>
    (extract hv _ _).bind fun _ hbyte => store hf hplace hbyte) ha

end Build.Safe

theorem Engine.outcomes_safe {sure : Prop} {rules : Rules} {pc : Formula} (h : pc.WellFormed scope)
    (source target : Address) :
    Safe sure rules scope (outcomes pc source target) fun _ => True := by
  have hsingle : Safe sure rules scope (do
      let dest ← constant target.toNat pc.width
      let constraint ← eq pc dest
      return [({ taken := true, source, target, constraint } : Branch)]) fun _ => True :=
    (Safe.word fun _ => h.width_range).bind fun _ hdest =>
      (Safe.compare h .eq hdest).bind fun _ _ => .pure trivial
  have hout : ∀ dest address, dest.WellFormed scope →
      Safe sure rules scope (outcome pc source target dest address) fun _ => True :=
    fun dest address hdest => (Safe.compare h .eq hdest).bind fun _ _ => .pure trivial
  unfold outcomes
  split
  · next c onTrue onFalse =>
    have hTrue : onTrue.WellFormed scope := h.children (by simp)
    have hFalse : onFalse.WellFormed scope := h.children (by simp)
    split
    · refine .ite (fun _ => ?_) fun _ => hsingle
      exact (hout _ _ hTrue).bind fun _ _ => (hout _ _ hFalse).bind fun _ _ => .pure trivial
    · exact hsingle
  · exact hsingle

end Concolic
