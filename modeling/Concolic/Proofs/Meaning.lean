import Concolic.Proofs.Unbinding

/-
  What registers and memory mean under values of the variables.

  What is read at a place, a register or a byte, is a `Site`. Where its place is
  bound it stands for a part of the value of the formula, which depends on the
  variables, and elsewhere for its concrete value (`meaning`). The formulas that an
  engine gives out have these values, whatever the variables are
  (`registerFormula_meaning`, `byteFormula_meaning`), and under the present values
  of the variables the meanings are the concrete values.
-/

namespace Concolic

open Access Symbolic Machine

/-! Values of the variables. -/

namespace Context

/-- The variables have their present values. -/
def Current (ctx : Context) (v : Valuation) : Prop :=
  ∀ (id : Nat) (entry : Variable), ctx.vars[id]? = some entry → v.var id = entry.value

theorem current_valuation (ctx : Context) (byte : Address → UInt8) :
    ctx.Current (ctx.valuation byte) := by
  intro id entry hentry
  simp only [valuation, variableValue, hentry]

theorem Current.earlier {ctx ctx' : Context} {v : Valuation} (h : ctx'.Current v)
    (hle : ctx.Later ctx') : ctx.Current v :=
  fun id entry hentry => h id entry (hle id entry hentry)

theorem Current.eval {ctx : Context} {v : Valuation} (h : ctx.Current v) {f : Formula}
    (hf : f.OverVariables ctx.scope) : f.eval v = ctx.evaluate f := by
  rw [evaluate_eq_eval hf fun _ => 0]
  refine hf.eval_congr fun id width hid => ?_
  obtain ⟨entry, hentry, -⟩ := scope_eq_some.1 hid
  rw [h id entry hentry]
  simp only [valuation, variableValue, hentry]

/-- The valuations in which two runs are compared: the present values of each, and
with `exact` all values of the variables, the same for both. -/
def Views (exact : Prop) (ctx ctx' : Context) (v v' : Valuation) : Prop :=
  v.Fits ctx.scope ∧ v'.Fits ctx'.scope ∧
    ((ctx.Current v ∧ ctx'.Current v') ∨ (exact ∧ v.var = v'.var))

namespace Views

variable {exact : Prop} {ctx ctx' d d' : Context} {v v' : Valuation}

theorem current (hb : ctx.Bounded) (hb' : ctx'.Bounded) :
    Views exact ctx ctx' (ctx.valuation fun _ => 0) (ctx'.valuation fun _ => 0) :=
  ⟨hb.fits _, hb'.fits _, .inl ⟨ctx.current_valuation _, ctx'.current_valuation _⟩⟩

theorem fits (h : Views exact ctx ctx' v v') : v.Fits ctx.scope ∧ v'.Fits ctx'.scope := ⟨h.1, h.2.1⟩

theorem symm (h : Views exact ctx ctx' v v') : Views exact ctx' ctx v' v :=
  ⟨h.2.1, h.1, h.2.2.imp And.symm (And.imp_right Eq.symm)⟩

/-- What is looked at later was looked at before. -/
theorem earlier (h : Views exact d d' v v') (hle : ctx.Later d) (hle' : ctx'.Later d') :
    Views exact ctx ctx' v v' := by
  refine ⟨fun id width hid => h.1 id width (hle.scope id width hid),
    fun id width hid => h.2.1 id width (hle'.scope id width hid), ?_⟩
  rcases h.2.2 with ⟨hv, hv'⟩ | hexact
  · exact .inl ⟨hv.earlier hle, hv'.earlier hle'⟩
  · exact .inr hexact

end Views

end Context

/-! Meanings. -/

/-- What can be read at a place: a register that lies in a root, or a byte. -/
inductive Site where
  | register (reg : Register)
  | byte (address : Address)

namespace Site

def place : Site → Place
  | register reg => .root reg.parent
  | byte address => .byte address

/-- The part of a word that is read, if the place is bound to that byte of the word. -/
def part (i : Nat) : Site → Nat → Nat
  | register reg => reg.read
  | byte _ => Word.slice (i * 8 + 7) (i * 8)

end Site

namespace Machine

def valueAt (machine : Machine) : Place → Nat
  | .root id => machine.root id
  | .byte address => (machine.byte address).toNat

def readAt (machine : Machine) : Site → Nat
  | .register reg => machine.register reg
  | .byte address => (machine.byte address).toNat

theorem readAt_congr {machine machine' : Machine} {site : Site}
    (h : machine.valueAt site.place = machine'.valueAt site.place) :
    machine.readAt site = machine'.readAt site := by
  cases site with
  | register reg => exact congrArg reg.read h
  | byte address => exact h

variable {machine : Machine} {place : Place}

theorem valueAt_setRegister {root : Register} (hisRoot : root.isRoot = true) (value : Nat)
    (h : ¬ (Origin.register root).Covers place) :
    (machine.setRegister root value).valueAt place = machine.valueAt place := by
  cases place with
  | byte address => rfl
  | root key =>
    exact (root_setRegister _ _ _ _).trans (if_neg fun heq => h ((beq_iff_eq.1 hisRoot).trans heq))

theorem byte_setValue_of_notMem {machine : Machine} {start address : Address}
    {bytes : Nat} (value : Nat) (h : address ∉ addressesFrom start bytes) :
    (machine.setValue start bytes value).byte address = machine.byte address := by
  have hlist : ∀ (values : List UInt8) (machine : Machine) (start : Address),
      address ∉ addressesFrom start values.length →
      (machine.setBytes start values).byte address = machine.byte address := by
    intro values
    induction values with
    | nil => exact fun _ _ _ => rfl
    | cons value rest ih =>
      intro machine start hmem
      rw [List.length_cons, addressesFrom_succ, List.mem_cons, not_or] at hmem
      rw [setBytes, ih _ _ hmem.2, byte_setByte, if_neg (Ne.symm hmem.1)]
  refine hlist _ machine start fun hmem => h ?_
  simp only [bytesOf, List.length_map, List.length_range, addressesFrom, List.mem_map,
    List.mem_range] at hmem ⊢
  obtain ⟨i, hi, hplace⟩ := hmem
  exact ⟨i, by omega, hplace⟩

theorem valueAt_setValue {access : Access} (value : Nat) (h : ¬ (Origin.memory access).Covers place) :
    (machine.setValue access.address access.bytes value).valueAt place = machine.valueAt place := by
  cases place with
  | root key => exact root_setValue _ _ _ _ _
  | byte address => exact congrArg UInt8.toNat (byte_setValue_of_notMem _ h)

end Machine

namespace Engine

/-- The value of a site under values of the variables. -/
def meaning (e : Engine) (v : Valuation) (site : Site) : Nat :=
  match e.symbolic.cell? site.place with
  | some cell => (e.symbolic.formula? cell.expression).elim 0 fun f => site.part cell.byte (f.eval v)
  | none => e.machine.readAt site

/-- A register is the architecture's, or it lies where nothing is bound. -/
def Readable (e : Engine) : Site → Prop
  | .register reg =>
      e.arch.Has reg ∨ (e.symbolic.registers[reg.parent]? = none ∧ Formula.WordWidth reg.bits)
  | .byte _ => True

variable {e e' : Engine} {site : Site} {cell : Cell} {f : Formula} {v : Valuation}

theorem meaning_free (h : e.symbolic.cell? site.place = none) :
    e.meaning v site = e.machine.readAt site := by
  simp only [meaning, h]

theorem meaning_bound (h : e.symbolic.cell? site.place = some cell)
    (hf : e.symbolic.formula? cell.expression = some f) :
    e.meaning v site = site.part cell.byte (f.eval v) := by
  simp only [meaning, h, hf, Option.elim_some]

theorem cell?_assign {origin : Origin} {place : Place} (e : Engine) (x : Expression) (m : Machine)
    (h : ¬ origin.Covers place) :
    (e.assign x origin m).symbolic.cell? place = e.symbolic.cell? place :=
  cell?_bindOrigin (e.symbolic.enter x) _ _ h

theorem cell?_assign_eq_none {origin : Origin} (e : Engine) (x : Expression) (m : Machine)
    (place : Place) (h : (e.assign x origin m).symbolic.cell? place = none) :
    ¬ origin.Covers place ∧ e.symbolic.cell? place = none := by
  have hout : ¬ origin.Covers place := fun hin => by
    obtain ⟨i, hcell⟩ := cell?_bindOrigin_of_covers hin
    cases h.symm.trans (hcell _ _ _)
  exact ⟨hout, cell?_assign e x m hout ▸ h⟩

/-- What is bound to a new expression means a part of its formula, the same part in all
engines. -/
theorem meaning_assign {origin : Origin} (h : origin.Covers site.place) :
    ∃ i, ∀ (e : Engine) (x : Expression) (m : Machine) (v : Valuation),
      (e.assign x origin m).meaning v site = site.part i (x.formula.eval v) := by
  obtain ⟨i, hcell⟩ := cell?_bindOrigin_of_covers h
  refine ⟨i, fun e x m v => ?_⟩
  have hbound : (e.assign x origin m).symbolic.cell? site.place =
      some ⟨e.symbolic.expressions.size, i⟩ := hcell _ _ _
  exact meaning_bound hbound (formula?_assign e x origin m)

namespace Agrees

variable {sized : Prop} (h : e.Agrees sized)

include h

theorem root_gives {reg : Register} {id : Nat} (hreg : e.arch.Has reg)
    (hid : e.symbolic.registers[reg.parent]? = some id) :
    ∃ f, e.symbolic.formula? id = some f ∧ e.context.Gives f reg.parentBits
      (e.context.evaluate f) ∧ reg.read (e.context.evaluate f) = e.machine.register reg := by
  obtain ⟨root, hroot, hisRoot, hbits⟩ := hreg.root
  obtain ⟨f, hf, hgives⟩ := h.registers root (Architecture.has_of_register? hroot) hisRoot id
    (Architecture.register?_id hroot ▸ hid)
  have hvalue := hgives.value_eq
  refine ⟨f, hf, hbits ▸ hvalue ▸ hgives, ?_⟩
  rw [hvalue, Register.read_eq_slice hreg.bits_pos,
    register_eq_slice hreg hroot hisRoot hbits e.machine]

/-- What is bound has a formula over the variables, with the concrete value. -/
theorem bound (hsite : e.Readable site) (hcell : e.symbolic.cell? site.place = some cell) :
    ∃ f, e.symbolic.formula? cell.expression = some f ∧ f.OverVariables e.scope ∧
      site.part cell.byte (e.context.evaluate f) = e.machine.readAt site := by
  cases site with
  | register reg =>
    obtain ⟨id, hid, rfl⟩ := Option.map_eq_some_iff.1 hcell
    rcases hsite with hreg | ⟨hfree, -⟩
    · obtain ⟨f, hf, hgives, hvalue⟩ := h.root_gives hreg hid
      exact ⟨f, hf, hgives.overVariables, hvalue⟩
    · rw [hfree] at hid
      cases hid
  | byte address =>
    obtain ⟨f, hf, hover, -, hvalue⟩ := h.bytes address cell hcell
    exact ⟨f, hf, hover, hvalue⟩

/-- Under the present values of the variables, a site has its concrete value. -/
theorem meaning_current (hsite : e.Readable site) (hv : e.context.Current v) :
    e.meaning v site = e.machine.readAt site := by
  cases hcell : e.symbolic.cell? site.place with
  | none => exact meaning_free hcell
  | some cell =>
    obtain ⟨f, hf, hover, hvalue⟩ := h.bound hsite hcell
    rw [meaning_bound hcell hf, hv.eval hover, hvalue]

theorem meaning_kept (hsite : e.Readable site) (hx : e.Extends e')
    (hcell : e'.symbolic.cell? site.place = e.symbolic.cell? site.place)
    (hvalue : e'.machine.valueAt site.place = e.machine.valueAt site.place) :
    e'.meaning v site = e.meaning v site := by
  cases hbound : e.symbolic.cell? site.place with
  | none => rw [meaning_free hbound, meaning_free (hcell.trans hbound), readAt_congr hvalue]
  | some cell =>
    obtain ⟨f, hf, -⟩ := h.bound hsite hbound
    rw [meaning_bound hbound hf, meaning_bound (hcell.trans hbound) (hx.formulas _ f hf)]

theorem registerFormula_meaning {reg : Register} (hreg : e.Readable (.register reg))
    (rules : Rules) :
    ∃ f, Build.Answers rules (e.symbolic.registerFormula e.machine reg) (.ok f) ∧
      f.OverVariables e.scope ∧ f.width = reg.bits ∧
      ∀ v : Valuation, v.Fits e.scope → f.eval v = e.meaning v (.register reg) := by
  refine View.Forms.answers_single (fun {v} hv => ?_) (h.bounded.fits fun _ => 0)
  cases hid : e.symbolic.registers[reg.parent]? with
  | none =>
    have hcell : e.symbolic.cell? (Site.register reg).place = none := Option.map_eq_none_iff.2 hid
    rw [meaning_free hcell]
    refine View.Forms.registerFormula ?_ (fun _ => rfl) fun id hsome => ?_
    · exact hreg.elim Architecture.Has.wordWidth And.right
    · rw [hid] at hsome
      cases hsome
  | some id =>
    rcases hreg with hreg | ⟨hfree, -⟩
    · obtain ⟨f, hf, hgives, -⟩ := h.root_gives hreg hid
      have hcell : e.symbolic.cell? (Site.register reg).place = some ⟨id, 0⟩ :=
        Option.map_eq_some_iff.2 ⟨id, hid, rfl⟩
      rw [meaning_bound hcell hf]
      refine View.Forms.registerFormula hreg.wordWidth (fun hnone => ?_) fun i hi => ?_
      · rw [hid] at hnone
        cases hnone
      · obtain rfl := Option.some.inj (hid.symm.trans hi)
        exact ⟨⟨_, hreg⟩, f, hf, View.gives_single hgives.overVariables hgives.width_eq⟩
    · rw [hfree] at hid
      cases hid

theorem byteFormula_meaning (address : Address) (rules : Rules) :
    ∃ f, Build.Answers rules (e.symbolic.byteFormula e.machine address) (.ok f) ∧
      f.OverVariables e.scope ∧ f.width = 8 ∧
      ∀ v : Valuation, v.Fits e.scope → f.eval v = e.meaning v (.byte address) := by
  refine View.Forms.answers_single (fun {v} hv => ?_) (h.bounded.fits fun _ => 0)
  refine View.Forms.byteFormula (fun hfree => ?_) fun cell hcell => ?_
  · replace hfree : e.symbolic.cell? (Site.byte address).place = none := hfree
    exact (meaning_free hfree).symm
  · obtain ⟨f, hf, hover, hlt, -⟩ := h.bytes address cell hcell
    replace hcell : e.symbolic.cell? (Site.byte address).place = some cell := hcell
    exact ⟨f, _, hf, View.gives_single hover rfl, hlt, (meaning_bound hcell hf).symm⟩

end Agrees

end Engine

end Concolic
