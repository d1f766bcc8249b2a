import Concolic.Proofs.StatusFlags

/-
  Runs that make variables.

  A fresh variable leaves the value of every formula as it is: a view goes on to a wider
  one (`View.Widens`), in which what gave a value gives it still (`Widens.gives`), and
  which shows the engine with the variable (`View.Shows.declare`). An instruction that
  leaves a flag undefined may make a variable with the value of the flag, so the machine
  stays like it was while the view widens: `S.Leads m x m' post` says of a part what
  `S.Runs m x m' post` says, for a view that may be wider in the end.
-/

namespace Concolic

open Architecture Step Word

/-- A formula has the same value wherever its variables and memory have. -/
theorem Formula.WellFormed.eval_congr {scope : Scope} {v v' : Valuation}
    (hvar : ∀ id width, scope id = some width → v.var id = v'.var id) (hbyte : v.byte = v'.byte)
    {f : Formula} (h : f.WellFormed scope) : f.eval v = f.eval v' := by
  -- a select reads its array through the stores, so both readings go by one induction
  suffices hboth : f.eval v = f.eval v' ∧
      ∀ address, f.readArray v address = f.readArray v' address from hboth.1
  have hinitial : ∀ address : Nat,
      (v.byte address.toUInt64).toNat = (v'.byte address.toUInt64).toNat := fun _ => by rw [hbyte]
  induction f with
  | constant | memory => exact ⟨rfl, hinitial⟩
  | var id width => exact ⟨hvar id width h.2, hinitial⟩
  | arith op left right hx hy | compare op left right hx hy | concat left right hx hy =>
    exact ⟨by simp only [eval, (hx h.2.1).1, (hy h.2.2).1], hinitial⟩
  | unary op operand hx | extract high low operand hx | zeroExtend width operand hx
  | signExtend width operand hx => exact ⟨by simp only [eval, (hx h.2).1], hinitial⟩
  | ite cond onTrue onFalse hx hy hz =>
    refine ⟨?_, hinitial⟩
    simp only [eval, (hx h.2.1).1, (hy h.2.2.1).1, (hz h.2.2.2).1]
  | select array index hx hy =>
    exact ⟨by simp only [eval, (hx h.2.1).2, (hy h.2.2).1], hinitial⟩
  | store array index value hx hy hz =>
    refine ⟨rfl, fun address => ?_⟩
    simp only [readArray, (hx h.2.1).2, (hy h.2.2.1).1, (hz h.2.2.2).1]

/-! Wider views. -/

namespace View

/-- The second view has the variables of the first, with the values that the first has
for them over the same memory. -/
structure Widens (V V' : View) : Prop where
  scope : V'.scope.Extends V.scope
  bare : V'.bare → V.bare
  admits : ∀ {v}, V'.admits v → ∃ u, V.admits u ∧ u.byte = v.byte ∧
    ∀ id width, V.scope id = some width → u.var id = v.var id

variable {V V' V'' : View}

theorem Widens.refl (V : View) : V.Widens V :=
  ⟨.refl _, id, fun {v} hv => ⟨v, hv, rfl, fun _ _ _ => rfl⟩⟩

theorem Widens.trans (h₁ : V.Widens V') (h₂ : V'.Widens V'') : V.Widens V'' := by
  refine ⟨h₁.scope.trans h₂.scope, fun h => h₁.bare (h₂.bare h), fun {v} hv => ?_⟩
  obtain ⟨u, hu, hbyte, hvar⟩ := h₂.admits hv
  obtain ⟨t, ht, hbyte', hvar'⟩ := h₁.admits hu
  refine ⟨t, ht, hbyte'.trans hbyte, fun id width hid => ?_⟩
  exact (hvar' id width hid).trans (hvar id width (h₁.scope id width hid))

theorem Widens.gives (h : V.Widens V') {f : Formula} {width value : Nat}
    (hf : V.Gives f width value) : V'.Gives f width value := by
  refine ⟨hf.wellFormed.mono h.scope, hf.word, hf.width_eq, fun hv => ?_,
    fun hbare => hf.memoryless (h.bare hbare)⟩
  obtain ⟨u, hu, hbyte, hvar⟩ := h.admits hv
  rw [← hf.eval_eq hu]
  exact (hf.wellFormed.eval_congr hvar hbyte).symm

/-- The view with a variable that has one value. -/
def declare (V : View) (id width : Nat) {value : Nat} (hvalue : value < Word.modulus width) :
    View where
  scope i := if i = id then some width else V.scope i
  bare := V.bare
  admits v := ∃ u, V.admits u ∧ v = { u with var := fun i => if i = id then value else u.var i }
  fits := by
    rintro v ⟨u, hu, rfl⟩ i size hi
    simp only at hi ⊢
    split
    · next hsame =>
      rw [if_pos hsame, Option.some.injEq] at hi
      exact hi ▸ hvalue
    · next hne =>
      rw [if_neg hne] at hi
      exact V.fits hu i size hi
  nonempty := by
    obtain ⟨u, hu⟩ := V.nonempty
    exact ⟨_, u, hu, rfl⟩

section

variable {id width value : Nat} {hvalue : value < Word.modulus width}

theorem widens_declare (hnew : V.scope id = none) : V.Widens (V.declare id width hvalue) := by
  have hother : ∀ i size, V.scope i = some size → i ≠ id := by
    rintro i size hi rfl
    rw [hnew] at hi
    cases hi
  refine ⟨fun i size hi => ?_, fun h => h, ?_⟩
  · exact (if_neg (hother i size hi)).trans hi
  · rintro v ⟨u, hu, rfl⟩
    exact ⟨u, hu, rfl, fun i size hi => (if_neg (hother i size hi)).symm⟩

theorem gives_declare (hwidth : Formula.WordWidth width) :
    (V.declare id width hvalue).Gives (.var id width) width value := by
  refine ⟨⟨hwidth, if_pos rfl⟩, rfl, rfl, ?_, fun _ => trivial⟩
  rintro v ⟨u, -, rfl⟩
  exact if_pos rfl

end

section

variable {e : Engine} {width value : Nat} {hvalue : value < Word.modulus width}

theorem widens_fresh (hscope : e.scope = V.scope) :
    V.Widens (V.declare e.vars.size width hvalue) := by
  refine widens_declare ?_
  rw [← hscope]
  simp [Context.scope]

theorem vars_addVariable (context : Context) (width : Nat) (nickname : Option String)
    (value i : Nat) : (context.addVariable width nickname value).vars[i]? =
      if i = context.vars.size then
        some { id := context.vars.size, width, nickname, value := truncate width value }
      else context.vars[i]? := Array.getElem?_push

theorem scope_fresh (hscope : e.scope = V.scope) (nickname : Option String) :
    (e.context.addVariable width nickname value).scope =
      (V.declare e.vars.size width hvalue).scope := by
  funext i
  show ((e.context.addVariable width nickname value).vars[i]?).map Variable.width =
    if i = e.vars.size then some width else V.scope i
  rw [vars_addVariable, ← hscope]
  split
  · rfl
  · rfl

theorem admits_fresh (hadmits : V.admits e.valuation) (nickname : Option String) (pool : Pool) :
    (V.declare e.vars.size width hvalue).admits
      (({ e.context.addVariable width nickname value with pool } : Context).valuation
        e.machine.byte) := by
  refine ⟨e.valuation, hadmits, ?_⟩
  have hvar : ({ e.context.addVariable width nickname value with pool } :
      Context).variableValue = fun i =>
        if i = e.vars.size then value else e.context.variableValue i := by
    funext i
    simp only [Context.variableValue, vars_addVariable]
    by_cases hi : i = e.vars.size
    · simp only [hi, if_true, truncate_of_lt hvalue]
    · simp only [hi, if_false]
  exact congrArg (fun var => (⟨var, e.machine.byte⟩ : Valuation)) hvar

/-- The engine with a fresh variable is shown by the view with the variable. -/
theorem Shows.declare (h : V.Shows e) (hwidth : Formula.WordWidth width)
    (hvalue : value < modulus width) (nickname : Option String) (pool : Pool) :
    (V.declare e.vars.size width hvalue).Shows
      { e with context := { e.context.addVariable width nickname value with pool } } :=
  h.carry (e.weakens_addVariable hwidth nickname value pool) (widens_fresh h.scope_eq).gives
    (scope_fresh h.scope_eq nickname) (admits_fresh h.admits nickname pool)

end

end View

/-! Runs to a wider view. -/

namespace Scene

abbrev withView (S : Scene) (V : View) : Scene := { S with view := V }

/-- The part leads from a machine like `m` to one like `m'`, which a wider view shows, and
what it answers is so there. -/
def Leads {α : Type} (S : Scene) (m : Machine) (x : Step α) (m' : Machine)
    (post : View → α → Prop) : Prop :=
  Brings (S.At m) x fun a s' => ∃ V, S.view.Widens V ∧ (S.withView V).At m' s' ∧ post V a

variable {S : Scene} {m m' m'' : Machine} {α β : Type} {x : Step α}

theorem Runs.leads {post : α → Prop} (h : S.Runs m x m' post) : S.Leads m x m' fun _ => post := by
  intro s hs
  obtain ⟨a, s', hrun, hs', ha⟩ := h s hs
  exact ⟨a, s', hrun, S.view, .refl _, hs', ha⟩

theorem Runs.then {k : α → Step β} {post : α → Prop} {post' : View → β → Prop}
    (hx : S.Runs m x m' post) (hk : ∀ a, post a → S.Leads m' (k a) m'' post') :
    S.Leads m (x >>= k) m'' post' := Brings.bind hx fun a s h => hk a h.2 s h.1

theorem Runs.then_eq {k : α → Step β} {post : View → β → Prop} {a : α}
    (hx : S.Runs m x m' (· = a)) (hk : S.Leads m' (k a) m'' post) : S.Leads m (x >>= k) m'' post :=
  hx.then fun _ h => h ▸ hk

namespace Leads

variable {post : View → α → Prop}

/-- A formula is built first. -/
theorem form {width value : Nat} {b : Build Formula} {k : Formula → Step α}
    (h : ∀ {rules}, S.view.Forms rules b width value)
    (hk : ∀ f, S.view.Gives f width value → S.Leads m (k f) m' post) :
    S.Leads m (exec (Exec.build b) >>= k) m' post := (Runs.build fun _ => h).then hk

theorem bind {k : α → Step β} {post' : View → β → Prop} (hx : S.Leads m x m' post)
    (hk : ∀ V a, S.view.Widens V → post V a → (S.withView V).Leads m' (k a) m'' post') :
    S.Leads m (x >>= k) m'' post' := by
  refine Brings.bind hx fun a s₁ h => ?_
  obtain ⟨V, hV, hs₁, ha⟩ := h
  obtain ⟨b, s₂, hrun, W, hW, hb⟩ := hk V a hV ha s₁ hs₁
  exact ⟨b, s₂, hrun, W, hV.trans hW, hb⟩

theorem alike (hx : S.Leads m x m' post) (hm : Machine.Alike S.arch m'' m') :
    S.Leads m x m'' post := by
  intro s hs
  obtain ⟨a, s', hrun, V, hV, hs', ha⟩ := hx s hs
  exact ⟨a, s', hrun, V, hV, hs'.alike hm, ha⟩

theorem unknownValue {reg : Register} (hreg : S.arch.Has reg) :
    S.Leads m (unknownValue reg) m fun V f => V.Gives f reg.bits (m.register reg) := by
  intro s hs
  obtain ⟨pool, hrun⟩ := run_unknownValue hreg.wordWidth s
  have hvalue := s.machine.register_lt reg
  refine ⟨_, _, hrun, S.view.declare s.vars.size reg.bits hvalue,
    View.widens_fresh hs.shows.scope_eq,
    ⟨{ __ := hs.toBare }, hs.shows.declare hreg.wordWidth hvalue _ pool⟩, ?_⟩
  rw [← hs.register hreg]
  exact View.gives_declare hreg.wordWidth

theorem complete {x : Step Unit} (hx : S.Leads m x m' fun _ _ => True) :
    S.Leads m (complete x) (m'.past S.arch S.code) fun _ => (· = none) :=
  hx.bind fun V _ _ _ => ((Runs.advance (S := S.withView V)).bind fun _ _ =>
    (Runs.pure rfl : Runs _ _ _ _ (· = none))).leads

end Leads

theorem Runs.isOn (mode : Mode) : S.Moves m (isOn mode) m := look fun _ _ => trivial

end Scene

/-! Flags that are left undefined. -/

theorem Machine.alike_setFlag_flag {arch : Architecture} {id : Nat} (hid : arch.isFlag id = true)
    (m : Machine) : Alike arch m (m.setFlag arch id (m.flag arch id)) := by
  obtain ⟨reg, hreg, hroot, hone, -⟩ := register_of_isFlag hid
  rw [setFlag_eq hreg, ← register_flag hreg hone]
  exact ⟨fun hother => (register_restore (has_of_register? hreg) hroot
    ⟨arch, hother⟩ m).symm, fun _ => rfl⟩

namespace Scene.Leads

variable {S : Scene} {m : Machine} {id : Nat}

theorem ifUndefined {x : Step Unit} (h : S.Leads m x m fun _ _ => True) :
    S.Leads m (ifUndefined x) m fun _ _ => True := by
  refine (Runs.isOn _).then fun on _ => ?_
  cases on with
  | false => exact (Runs.pure trivial).leads
  | true => exact h

theorem undefine (hid : S.arch.isFlag id = true) : S.Leads m (undefine id) m fun _ _ => True := by
  obtain ⟨reg, hreg, -, hone, -⟩ := register_of_isFlag hid
  refine ifUndefined ((Runs.register hreg).then_eq ?_)
  refine (unknownValue (has_of_register? hreg)).bind fun V f _ hf => ?_
  rw [hone, Machine.register_flag hreg hone] at hf
  exact (Runs.writeFlag (S := S.withView V) hid hf _ _).leads.alike (m.alike_setFlag_flag hid)

theorem undefineAll {ids : List Nat} (hids : ∀ id ∈ ids, S.arch.isFlag id = true) :
    S.Leads m (ids.forM Step.undefine) m fun _ _ => True := by
  induction ids generalizing S with
  | nil => exact (Runs.pure trivial).leads
  | cons id ids ih =>
    exact (undefine (hids id (by simp))).bind fun V _ _ _ =>
      ih (S := S.withView V) fun other hother => hids other (by simp [hother])

/-- A flag that is left undefined, or not, keeps its value. -/
theorem undefineUnless (hid : S.arch.isFlag id = true) {keep : Formula} {holds : Bool}
    (hkeep : S.view.Gives keep 1 holds.toNat) :
    S.Leads m (undefineUnless keep id) m fun _ _ => True := by
  obtain ⟨reg, hreg, hroot, hone, hzero⟩ := register_of_isFlag hid
  have hhas := has_of_register? hreg
  refine ifUndefined ((Runs.register hreg).then_eq ?_)
  refine (Runs.readFlagRegister hid hreg).then fun old hold => ?_
  refine (unknownValue hhas).bind fun V fresh hV hfresh => ?_
  rw [hone, Machine.register_flag hreg hone] at hfresh
  have hchosen : ∀ rules, V.Forms rules (Build.ite keep old fresh) 1
      (m.flag S.arch id).toNat := fun rules =>
    (View.Forms.ite (hV.gives hkeep) (hV.gives hold) hfresh).of_eq rfl (ite_self _)
  refine (Runs.build (S := S.withView V) hchosen).then fun f hf => ?_
  refine (Runs.evaluate (S := S.withView V) (hV.gives hkeep)).then fun kept _ => ?_
  refine (Runs.isRegisterTainted (S := S.withView V) hreg).then fun tainted _ => ?_
  exact (Runs.writeFlag (S := S.withView V) hid hf _ _).leads.alike (m.alike_setFlag_flag hid)

end Scene.Leads

/-! Whole instructions. -/

/-- An instruction that leads to a machine like `m'` leads to an engine that is shown by a
wider view. -/
theorem Engine.process_leads {e : Engine} {V : View} (hshows : V.Shows e) {inst : Instruction}
    {action : Step (Option Fault)} (hsemantics : e.arch.semantics? inst.opcode = some action)
    (hops : ∀ op ∈ inst.operands, op.Resolves e.arch) {m' : Machine}
    (haction : (e.scene V inst).Leads e.machine action m' fun _ => (· = none)) :
    ∃ s', process ⟨e, inst⟩ = .ok none s' ∧ s'.arch = e.arch ∧
      Machine.Alike e.arch m' s'.machine ∧ s'.engine.Coherent := by
  have hrun : ∀ s, (e.scene V inst).At e.machine s → ∃ s', action s = .ok none s' ∧
      ∃ W, ((e.scene V inst).withView W).At m' s' := by
    intro s hs
    obtain ⟨fault, s', hrun, W, -, hs', rfl⟩ := haction s hs
    exact ⟨s', hrun, W, hs'⟩
  obtain ⟨s, s', hs, hrun, hsettles⟩ :=
    process_runs hshows hsemantics hops hrun fun s hs => by
      obtain ⟨W, hs⟩ := hs
      exact hs.listed
  obtain ⟨W, hs⟩ := hs
  obtain ⟨harch, halike, hshows'⟩ := hs.settles hsettles
  exact ⟨s', hrun, harch, halike, hshows'.coherent⟩

end Concolic
