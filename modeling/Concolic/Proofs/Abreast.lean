import Concolic.Proofs.Meaning
import Concolic.Proofs.Unbinding

/-
  Two engines that run abreast.

  Engines with one architecture, each under modes of its own, run abreast if what
  their registers and bytes mean is the same in all the valuations that are looked
  at, some hidden places apart (`Abreast`). What is to be compared is a
  `Comparison`: the concrete execution alone, or with it the taint, or all values
  of the variables. Where taint is tracked, tainted places may be hidden. A write of
  formulas alike to both engines leaves them abreast, and a place that is written
  with formulas of two values is hidden from then on.
-/

namespace Concolic

open Access (distance)
open Symbolic Context Machine Engine

variable {access : Access} {l : Bool} {x x' : Expression} {reg root : Register} {address : Address}
  {f g : Formula} {m m' : Machine}

/-! Places. -/

def Taint.isPlace (t : Taint) : Place → Bool
  | .root id => t.registers.contains id
  | .byte address => t.isByte address

/-- The places that an operand is made of. -/
def Operand.Covers : Operand → Place → Prop
  | .register reg, .root id => reg.parent = id
  | .memory access, .byte address => address ∈ access.byteAddresses
  | _, _ => False

namespace Operand

theorem covers_root (h : root.isRoot = true) {place : Place} :
    (register root).Covers place ↔ (Origin.register root).Covers place := by
  cases place with
  | root id =>
    show root.parent = id ↔ root.id = id
    rw [beq_iff_eq.1 h]
  | byte address => exact Iff.rfl

theorem covers_memory {place : Place} :
    (memory access).Covers place ↔ (Origin.memory access).Covers place := by
  cases place <;> exact Iff.rfl

end Operand

instance (op : Operand) (place : Place) : Decidable (op.Covers place) := by
  cases op <;> cases place <;> unfold Operand.Covers <;> infer_instance

namespace Taint

theorem isByte_setAccess (t : Taint) (access : Access) (b : Bool) (address : Address) :
    (t.setAccess access b).isByte address =
      if address ∈ access.byteAddresses then b else t.isByte address := by
  unfold setAccess
  induction access.byteAddresses generalizing t with
  | nil => rfl
  | cons first rest ih =>
    rw [List.foldl_cons, ih, isByte_setByte]
    by_cases hrest : address ∈ rest
    · simp [hrest]
    · by_cases hfirst : first = address
      · simp [hfirst]
      · simp [hfirst, Ne.symm hfirst]

theorem registers_setAccess (t : Taint) (access : Access) (b : Bool) :
    (t.setAccess access b).registers = t.registers := by
  unfold setAccess
  induction access.byteAddresses generalizing t with
  | nil => rfl
  | cons first rest ih =>
    rw [List.foldl_cons, ih]
    rfl

/-- A destination that is given a taint has it in all of its places, and no other place
changes. -/
theorem isPlace_setOperand (t : Taint) (b : Bool) (dst : Operand) (place : Place) :
    (t.setOperand b dst).2.isPlace place = if dst.Covers place then b else t.isPlace place := by
  cases dst with
  | immediate imm => cases place <;> simp [setOperand, Operand.Covers]
  | register reg =>
    cases place with
    | root id =>
      by_cases h : reg.parent = id <;> cases b <;>
        simp [setOperand, setRegister, isPlace, Operand.Covers, h]
    | byte address => simp [setOperand, setRegister, isPlace, isByte, Operand.Covers]
  | memory access =>
    cases place with
    | root id => simp [setOperand, isPlace, Operand.Covers, registers_setAccess]
    | byte address => exact isByte_setAccess t access b address

theorem isOperand_iff (t : Taint) (op : Operand) :
    t.isOperand false op = true ↔ ∃ place, op.Covers place ∧ t.isPlace place = true := by
  cases op with
  | immediate imm => simp [isOperand, Operand.Covers]
  | register reg =>
    constructor
    · exact fun h => ⟨.root reg.parent, rfl, h⟩
    · rintro ⟨place, hcovers, h⟩
      cases place with
      | root id => cases hcovers; exact h
      | byte address => exact hcovers.elim
  | memory access =>
    simp only [isOperand, isAccess, Bool.false_and, Bool.or_false, List.any_eq_true]
    constructor
    · exact fun ⟨address, hmem, h⟩ => ⟨.byte address, hmem, h⟩
    · rintro ⟨place, hcovers, h⟩
      cases place with
      | root id => exact hcovers.elim
      | byte address => exact ⟨address, hcovers, h⟩

theorem isOperand_congr {t t' : Taint} (h : ∀ place, t.isPlace place = t'.isPlace place)
    (op : Operand) : t.isOperand false op = t'.isOperand false op := by
  rw [Bool.eq_iff_iff, isOperand_iff, isOperand_iff]
  simp only [h]

theorem isPlace_restore (t : Taint) (reg : Register) (place : Place) :
    (t.setOperand (t.isRegister reg) (.register reg)).2.isPlace place = t.isPlace place := by
  rw [isPlace_setOperand]
  split
  · next hcovers =>
    cases place with
    | root id => cases hcovers; rfl
    | byte address => exact hcovers.elim
  · rfl

theorem isOperand_mono (t : Taint) (pointers : Bool) {op : Operand}
    (h : t.isOperand false op = true) : t.isOperand pointers op = true := by
  cases op with
  | immediate imm => exact h
  | register reg => exact h
  | memory access =>
    simp only [isOperand, isAccess, Bool.false_and, Bool.or_false] at h ⊢
    rw [h, Bool.true_or]

end Taint

/-! What is compared. -/

/-- Two runs on one architecture, and what is compared of them. -/
structure Comparison where
  arch : Architecture
  left : Modes
  right : Modes
  /-- All values of the variables are looked at, and not the present ones alone. -/
  exact : Bool
  /-- Taint is compared. -/
  tainted : Bool
  /-- Tainted places may have two values. -/
  tracked : Bool
  shapes : exact = true → ∀ mode, mode ∉ [.constantFolding, .astOptimizations, .onlyOnSymbolized] →
    left.isOn mode = right.isOn mode
  pointers : tainted = true →
    left.isOn .taintThroughPointers = right.isOn .taintThroughPointers
  undefined : tainted = true →
    left.isOn .concretizeUndefinedRegisters = right.isOn .concretizeUndefinedRegisters
  exactly : exact = true → tainted = true
  tracks : tracked = true →
    exact = false ∧ tainted = true ∧ left.isOn .concretizeUndefinedRegisters = false

namespace Comparison

variable (k : Comparison)

/-- The registers that instructions may name: those of the architecture where taint is
tracked, and those of any architecture otherwise. -/
def Source (reg : Register) : Prop := if k.tracked then k.arch.Has reg else reg.Known

/-- What is compared: not the zero registers, where taint is tracked. -/
def Reads : Site → Prop
  | .register reg => k.Source reg ∧ (k.tracked = true → k.arch.isZeroRegister reg = false)
  | .byte _ => True

variable {k}

theorem source_of_has (h : k.arch.Has reg) : k.Source reg := by
  unfold Source
  split
  · exact h
  · exact ⟨_, h⟩

theorem Source.known (h : k.Source reg) : reg.Known := by
  unfold Source at h
  split at h
  · exact ⟨_, h⟩
  · exact h

theorem Source.wordWidth (h : k.Source reg) : Formula.WordWidth reg.bits := by
  obtain ⟨arch, harch⟩ := h.known
  exact harch.wordWidth

/-- The valuations in which formulas of a level have one value. -/
def views (k : Comparison) (l : Bool) (ctx ctx' : Context) (v v' : Valuation) : Prop :=
  (k.tracked = true → l = false) ∧ Views (k.exact = true) ctx ctx' v v'

theorem views_fits {ctx ctx' : Context} (v v' : Valuation) (h : k.views l ctx ctx' v v') :
    v.Fits ctx.scope ∧ v'.Fits ctx'.scope := h.2.fits

end Comparison

namespace Engine

/-- One engine of a comparison: its two states agree, and registers that are not the
architecture's are bound to nothing. -/
structure Sound (k : Comparison) (modes : Modes) (e : Engine) : Prop where
  agrees : e.Agrees False
  arch : e.arch = k.arch
  modes : e.modes = modes
  reads : ∀ reg, k.Source reg → e.Readable (.register reg)

namespace Sound

variable {k : Comparison} {modes : Modes} {e e' : Engine}

section

variable (h : e.Sound k modes)

include h

theorem readable {site : Site} (hsite : k.Reads site) : e.Readable site := by
  cases site with
  | register reg => exact h.reads reg hsite.1
  | byte address => trivial

theorem weaken (hw : e.Weakens e') : e'.Sound k modes where
  agrees := h.agrees.weaken hw
  arch := hw.arch.trans h.arch
  modes := hw.modes.trans h.modes
  reads reg hreg := by
    rcases h.reads reg hreg with hhas | ⟨hfree, hword⟩
    · exact .inl (hw.arch ▸ hhas)
    · refine .inr ⟨?_, hword⟩
      cases hid : e'.symbolic.registers[reg.parent]? with
      | none => rfl
      | some id =>
        rw [hw.registers _ id hid] at hfree
        cases hfree

theorem bind {origin : Origin}
    (hroot : ∀ root, origin = .register root → k.arch.Has root ∧ root.isRoot = true)
    (hagrees : (e.assign x origin m).Agrees False) : (e.assign x origin m).Sound k modes where
  agrees := hagrees
  __ := h
  reads reg hreg := by
    by_cases hcovers : origin.Covers (.root reg.parent)
    · cases origin with
      | register root =>
        obtain ⟨hhas, hisRoot⟩ := hroot root rfl
        refine .inl ?_
        rw [show (e.assign x (.register root) _).arch = k.arch from h.arch]
        exact hreg.known.has hhas hisRoot hcovers
      | memory access => exact hcovers.elim
      | volatile => exact hcovers.elim
    · rcases h.reads reg hreg with hhas | ⟨hfree, hword⟩
      · exact .inl hhas
      · refine .inr ⟨Option.map_eq_none_iff.1 ((cell?_assign _ _ _ hcovers).trans ?_), hword⟩
        exact Option.map_eq_none_iff.2 hfree

theorem writeRegister (hroot : k.arch.Has root) (hisRoot : root.isRoot = true)
    (hx : x.formula.OverVariables e.scope) (hwidth : x.formula.width = root.bits) :
    (e.assignRoot x root).Sound k modes :=
  h.bind (fun _ heq => Origin.register.inj heq ▸ ⟨hroot, hisRoot⟩)
    (h.agrees.writeRegister (h.arch ▸ hroot) hisRoot hx hwidth)

theorem writeMemory (hx : x.formula.OverVariables e.scope)
    (hwidth : x.formula.width = access.bytes * 8) :
    (e.assignAccess x access).Sound k modes :=
  h.bind (by simp) (h.agrees.writeMemory False.elim hx hwidth)

end

end Sound

/-! Exact comparison. -/

/-- Under the valuation, every decision goes the way that it went. -/
def Holds (e : Engine) (v : Valuation) : Prop :=
  ∀ p ∈ e.symbolic.constraints, ∀ b, p.taken? = some b → b.constraint.eval v = 1

def Conditions (e : Engine) : Prop :=
  ∀ p ∈ e.symbolic.constraints, ∀ b ∈ p.branches,
    b.constraint.OverVariables e.scope ∧ b.constraint.width = 1

/-- The two engines have one set of variables, expressions of one kind under every
number, no two expressions bound to one place, and paths that hold alike. -/
structure Exact (e e' : Engine) : Prop where
  vars : e.vars = e'.vars
  tags : e.symbolic.expressions.map Expression.tag = e'.symbolic.expressions.map Expression.tag
  cells : ∀ place cell cell', e.symbolic.cell? place = some cell →
    e'.symbolic.cell? place = some cell' → cell = cell'
  left : e.Conditions
  right : e'.Conditions
  path : ∀ v v', Views True e.context e'.context v v' → (e.Holds v ↔ e'.Holds v')

/-- The two engines run abreast: what is not hidden has one meaning in both. -/
structure Abreast (k : Comparison) (hidden : Place → Prop) (e e' : Engine) : Prop where
  left : e.Sound k k.left
  right : e'.Sound k k.right
  sites : ∀ site, k.Reads site → ¬ hidden site.place → ∀ v v',
    Views (k.exact = true) e.context e'.context v v' → e.meaning v site = e'.meaning v' site
  taint : k.tainted = true → e.taint = e'.taint
  exact : k.exact = true → Exact e e'

/-- Words over the variables of one engine each, which have one value as far as formulas
of the level have. -/
def Knows (k : Comparison) (e e' : Engine) (l : Bool) (f g : Formula) : Prop :=
  Formula.Alike (k.views l e.context e'.context) e.scope e'.scope f g

/-! Exact comparison of changed engines. -/

namespace Exact

variable {e e' : Engine}

theorem symm (h : Exact e e') : Exact e' e where
  vars := h.vars.symm
  tags := h.tags.symm
  cells place cell cell' hcell hcell' := (h.cells place cell' cell hcell' hcell).symm
  left := h.right
  right := h.left
  path v v' hv := (h.path v' v hv.symm).symm

theorem size_eq (h : Exact e e') : e.symbolic.expressions.size = e'.symbolic.expressions.size := by
  simpa using congrArg Array.size h.tags

theorem tag_eq (h : Exact e e') (id : Nat) : e.symbolic.expressions[id]?.map Expression.tag =
    e'.symbolic.expressions[id]?.map Expression.tag := by
  have hid := congrArg (fun table => table[id]?) h.tags
  simpa using hid

theorem assign (h : Exact e e') (htag : x.tag = x'.tag) (origin : Origin) (m m' : Machine) :
    Exact (e.assign x origin m) (e'.assign x' origin m') := by
  refine {
    vars := h.vars
    tags := ?_
    cells := ?_
    left := by unfold Conditions; rw [constraints_assign]; exact h.left
    right := by unfold Conditions; rw [constraints_assign]; exact h.right
    path := fun v v' hv => by
      unfold Holds; rw [constraints_assign, constraints_assign]; exact h.path v v' hv }
  · rw [expressions_assign, expressions_assign, Array.map_push, Array.map_push, h.tags, htag]
  · intro place cell cell' hcell hcell'
    by_cases hin : origin.Covers place
    · obtain ⟨i, hbound⟩ := cell?_bindOrigin_of_covers hin
      obtain rfl := Option.some.inj ((hbound _ _ _).symm.trans hcell)
      obtain rfl := Option.some.inj ((hbound _ _ _).symm.trans hcell')
      rw [h.size_eq]
    · rw [cell?_assign _ _ _ hin] at hcell hcell'
      exact h.cells place cell cell' hcell hcell'

theorem update (h : Exact e e') {id : Nat} {change change' : Expression → Expression}
    {symbolic symbolic' : Symbolic} (hs : Updates id change e.symbolic symbolic)
    (ht : Updates id change' e'.symbolic symbolic')
    (hchange : ∀ x y, x.tag = y.tag → (change x).tag = (change' y).tag) :
    Exact { e with symbolic } { e' with symbolic := symbolic' } := by
  exact {
    vars := h.vars
    tags := hs.map_eq ht hchange h.tags
    cells := fun place cell cell' => by rw [hs.cell?, ht.cell?]; exact h.cells place cell cell'
    left := by unfold Conditions; rw [hs.constraints]; exact h.left
    right := by unfold Conditions; rw [ht.constraints]; exact h.right
    path := fun v v' hv => by
      unfold Holds; rw [hs.constraints, ht.constraints]; exact h.path v v' hv }

theorem fewer (h : Exact e e') {d d' : Engine} (hcontext : d.context = e.context)
    (hcontext' : d'.context = e'.context) (hs : e.symbolic.Fewer d.symbolic)
    (ht : e'.symbolic.Fewer d'.symbolic) (hpath : d.symbolic.constraints = e.symbolic.constraints)
    (hpath' : d'.symbolic.constraints = e'.symbolic.constraints) : Exact d d' where
  vars := by rw [hcontext, hcontext']; exact h.vars
  tags := by rw [hs.expressions, ht.expressions]; exact h.tags
  cells place cell cell' hcell hcell' := h.cells place cell cell' (hs.cell? hcell) (ht.cell? hcell')
  left := by unfold Conditions; rw [hpath, hcontext]; exact h.left
  right := by unfold Conditions; rw [hpath', hcontext']; exact h.right
  path v v' hv := by
    rw [hcontext, hcontext'] at hv
    unfold Holds
    rw [hpath, hpath']
    exact h.path v v' hv

theorem addVariable (h : Exact e e') (width : Nat) (nickname : Option String) (value : Nat)
    (pool pool' : Pool) :
    Exact (e.addVariable width nickname value pool)
      (e'.addVariable width nickname value pool') := by
  have hconditions : ∀ (d : Engine) (pool : Pool), d.Conditions →
      (d.addVariable width nickname value pool).Conditions := by
    intro d pool hd p hp b hb
    obtain ⟨hover, hwidth⟩ := hd p hp b hb
    exact ⟨⟨hover.wellFormed.mono (d.context.addVariable_extends width nickname value),
      hover.memoryless⟩, hwidth⟩
  exact {
    vars := by simp only [Context.addVariable, h.vars]
    __ := h
    left := hconditions e pool h.left
    right := hconditions e' pool' h.right
    path := fun v v' hv => h.path v v' (hv.earlier (e.context.addVariable_later _ _ _)
      (e'.context.addVariable_later _ _ _)) }

end Exact

/-! Changes of both engines. -/

/-- A place keeps its binding and its concrete value. -/
def Stays (e e' : Engine) (place : Place) : Prop :=
  e'.symbolic.cell? place = e.symbolic.cell? place ∧
    e'.machine.valueAt place = e.machine.valueAt place

/-- The second engine has the bindings and the machine of the first. -/
structure SameBindings (e e' : Engine) : Prop extends e.Weakens e' where
  cells : ∀ place, e'.symbolic.cell? place = e.symbolic.cell? place

theorem Like.sameBindings {e e' : Engine} (h : e.Like e') : e.SameBindings e' :=
  { h.weakens with cells := cell?_congr h.registers h.memory }

/-- What is hidden after a destination is given formulas of a level. -/
def HiddenAfter (hidden : Place → Prop) (dst : Operand) (l : Bool) (place : Place) : Prop :=
  (dst.Covers place ∧ l = true) ∨ (¬ dst.Covers place ∧ hidden place)

namespace Abreast

variable {k : Comparison} {hidden hidden' : Place → Prop} {e e' d d' : Engine}

theorem mono (h : Abreast k hidden e e') (hle : ∀ place, hidden place → hidden' place) :
    Abreast k hidden' e e' where
  __ := h
  sites site hsite hshown := h.sites site hsite fun hh => hshown (hle _ hh)

theorem read_eq (h : Abreast k hidden e e') (site : Site) (hsite : k.Reads site)
    (hshown : ¬ hidden site.place) : e.machine.readAt site = e'.machine.readAt site := by
  have hviews : Views (k.exact = true) e.context e'.context _ _ :=
    .current h.left.agrees.bounded h.right.agrees.bounded
  have hmeaning := h.sites site hsite hshown _ _ hviews
  rw [h.left.agrees.meaning_current (h.left.readable hsite) (e.context.current_valuation _),
    h.right.agrees.meaning_current (h.right.readable hsite) (e'.context.current_valuation _)]
    at hmeaning
  exact hmeaning

theorem byte_eq (h : Abreast k hidden e e') (hshown : ¬ hidden (.byte address)) :
    e.machine.byte address = e'.machine.byte address :=
  UInt8.toNat_inj.1 (h.read_eq (.byte address) trivial hshown)

/-! What is read from both engines. -/

section

variable {rules rules' : Rules} {l : Bool}

section

variable (h : Abreast k hidden e e')

include h

/-- What is read at a site that is shown, as far as formulas of the level have one value. -/
theorem formula (site : Site) {b b' : Build Formula} {width : Nat}
    (hshown : (k.tracked = true → l = false) → k.Reads site ∧ ¬ hidden site.place)
    (hb : ∃ f, Build.Answers rules b (.ok f) ∧ f.OverVariables e.scope ∧ f.width = width ∧
      ∀ v : Valuation, v.Fits e.scope → f.eval v = e.meaning v site)
    (hb' : ∃ f, Build.Answers rules' b' (.ok f) ∧ f.OverVariables e'.scope ∧
      f.width = width ∧ ∀ v : Valuation, v.Fits e'.scope → f.eval v = e'.meaning v site) :
    Build.Matches rules rules' b b' (Knows k e e' l) := by
  obtain ⟨f, hf, hover, hwidth, hmeaning⟩ := hb
  obtain ⟨f', hf', hover', hwidth', hmeaning'⟩ := hb'
  refine .inl ⟨f, f', hf, hf', hover, hover', hwidth.trans hwidth'.symm, fun v v' hv => ?_⟩
  obtain ⟨hreads, hvisible⟩ := hshown hv.1
  rw [hmeaning v hv.2.1, hmeaning' v' hv.2.2.1]
  exact h.sites site hreads hvisible v v' hv.2

theorem registerFormula (hreg : k.Source reg)
    (hshown : (k.tracked = true → l = false) →
      k.Reads (.register reg) ∧ ¬ hidden (.root reg.parent)) :
    Build.Matches rules rules' (e.symbolic.registerFormula e.machine reg)
      (e'.symbolic.registerFormula e'.machine reg) (Knows k e e' l) :=
  h.formula (.register reg) hshown (h.left.agrees.registerFormula_meaning (h.left.reads reg hreg) rules)
    (h.right.agrees.registerFormula_meaning (h.right.reads reg hreg) rules')

theorem memoryFormula (hshown : (k.tracked = true → l = false) →
      ∀ address ∈ access.byteAddresses, ¬ hidden (.byte address)) :
    Build.Matches rules rules' (e.symbolic.memoryFormula false e.machine access)
      (e'.symbolic.memoryFormula false e'.machine access) (Knows k e e' l) := by
  refine .ite (fun _ => .fail _) fun _ => ?_
  have hbytes : Build.Matches rules rules'
      (access.byteAddresses.reverse.mapM (e.symbolic.byteFormula e.machine))
      (access.byteAddresses.reverse.mapM (e'.symbolic.byteFormula e'.machine))
      (List.Forall₂ (Knows k e e' l)) := by
    refine Build.Matches.sideBySide.mapM _ fun address haddress => ?_
    exact h.formula (.byte address) (fun hl => ⟨trivial, hshown hl address (List.mem_reverse.1 haddress)⟩)
      (h.left.agrees.byteFormula_meaning address rules)
      (h.right.agrees.byteFormula_meaning address rules')
  exact hbytes.bind fun fs gs hfs =>
    Build.Matches.sideBySide.concatMany
      (fun hf hg => .call Comparison.views_fits (.concat hf hg)) hfs

/-- The root of a register that is written. Where taint is tracked, the whole root is. -/
theorem mergeRegister (hwhole : k.tracked = true → reg.isRoot = true ∨ reg.merge = .zeroExtend)
    (hhidden : ∀ place, hidden place → k.tracked = true) (hf : Knows k e e' l f g) :
    Build.Matches rules rules' (e.symbolic.mergeRegister e.arch e.machine reg f)
      (e'.symbolic.mergeRegister e'.arch e'.machine reg g) (Knows k e e' l) := by
  rw [h.left.arch, h.right.arch]
  refine mergeRegister_matches (fun hc => .call Comparison.views_fits hc) hf hf.width_eq
    fun hself hmerge root hroot => ?_
  have htracked : k.tracked ≠ true := fun htracked => by
    rcases hwhole htracked with hisRoot | hzero
    · exact hself hisRoot
    · rw [hmerge] at hzero
      cases hzero
  have hsource := Comparison.source_of_has (Architecture.has_of_register? hroot)
  refine h.registerFormula hsource fun _ => ⟨⟨hsource, fun ht => absurd ht htracked⟩, ?_⟩
  exact fun hh => htracked (hhidden _ hh)

theorem evaluate_eq (hf : Knows k e e' false f g) : e.evaluate f = e'.evaluate g := by
  rw [Engine.evaluate_eq hf.left, Engine.evaluate_eq hf.right, evaluate_eq_eval hf.left fun _ => 0,
    evaluate_eq_eval hf.right fun _ => 0]
  exact hf.eval_eq _ _ ⟨fun _ => rfl, .current h.left.agrees.bounded h.right.agrees.bounded⟩

end

end

/-! Changes. -/

/-- Where only the present values are looked at, the concrete values are all that is
compared. -/
theorem of_machine (hexact : k.exact = false) (hl : e.Sound k k.left) (hr : e'.Sound k k.right)
    (hsites : ∀ site, k.Reads site → ¬ hidden site.place →
      e.machine.readAt site = e'.machine.readAt site)
    (htaint : k.tainted = true → e.taint = e'.taint) : Abreast k hidden e e' where
  left := hl
  right := hr
  sites site hsite hshown v v' hv := by
    rcases hv.2.2 with ⟨hcurrent, hcurrent'⟩ | ⟨hk, -⟩
    · rw [hl.agrees.meaning_current (hl.readable hsite) hcurrent,
        hr.agrees.meaning_current (hr.readable hsite) hcurrent', hsites site hsite hshown]
    · rw [hexact] at hk
      cases hk
  taint := htaint
  exact hk := by rw [hexact] at hk; cases hk

variable (h : Abreast k hidden e e')

include h

/-- What is shown afterwards was shown and stays as it was, or has one meaning again. -/
theorem change (hl : d.Sound k k.left) (hr : d'.Sound k k.right) (hx : e.Extends d)
    (hx' : e'.Extends d')
    (hsites : ∀ site, k.Reads site → ¬ hidden' site.place →
      (¬ hidden site.place ∧ e.Stays d site.place ∧ e'.Stays d' site.place) ∨
      ∀ v v', Views (k.exact = true) d.context d'.context v v' →
        d.meaning v site = d'.meaning v' site)
    (htaint : k.tainted = true → d.taint = d'.taint) (hexact : k.exact = true → Exact d d') :
    Abreast k hidden' d d' where
  left := hl
  right := hr
  sites site hsite hshown v v' hv := by
    rcases hsites site hsite hshown with ⟨hold, hd, hd'⟩ | hnew
    · rw [h.left.agrees.meaning_kept (h.left.readable hsite) hx hd.1 hd.2,
        h.right.agrees.meaning_kept (h.right.readable hsite) hx' hd'.1 hd'.2]
      exact h.sites site hsite hold v v' (hv.earlier hx.context hx'.context)
    · exact hnew v v' hv
  taint := htaint
  exact := hexact

theorem rest (hl : e.SameBindings d) (hr : e'.SameBindings d')
    (htaint : k.tainted = true → d.taint = d'.taint) (hexact : k.exact = true → Exact d d') :
    Abreast k hidden d d' := by
  refine h.change (h.left.weaken hl.toWeakens) (h.right.weaken hr.toWeakens) hl.toExtends
    hr.toExtends (fun site _ hshown => .inl ⟨hshown, ⟨hl.cells _, ?_⟩, hr.cells _, ?_⟩) htaint hexact
  · rw [hl.machine]
  · rw [hr.machine]

theorem addVariable {width value : Nat} (hw : Formula.WordWidth width)
    (hvalue : value < Word.modulus width) (nickname : Option String) (pool pool' : Pool) :
    Abreast k hidden (e.addVariable width nickname value pool)
      (e'.addVariable width nickname value pool') ∧
    ∀ l, Knows k (e.addVariable width nickname value pool)
      (e'.addVariable width nickname value pool') l
      (.var e.vars.size width) (.var e'.vars.size width) := by
  have hsame : ∀ (d : Engine) (pool : Pool),
      d.SameBindings (d.addVariable width nickname value pool) := fun d pool =>
    { d.weakens_addVariable hw _ _ pool with cells := fun _ => rfl }
  refine ⟨h.rest (hsame e pool) (hsame e' pool') h.taint fun hk =>
    (h.exact hk).addVariable width nickname value pool pool', fun l => ?_⟩
  have hleft := e.context.gives_addVariable hw hvalue nickname pool
  have hright := e'.context.gives_addVariable hw hvalue nickname pool'
  refine ⟨hleft.overVariables, hright.overVariables, rfl, fun v v' hv => ?_⟩
  rcases hv.2.2.2 with ⟨hcurrent, hcurrent'⟩ | ⟨hexact, hvar⟩
  · rw [hcurrent.eval hleft.overVariables, hcurrent'.eval hright.overVariables, hleft.value_eq,
      hright.value_eq]
  · simp only [Formula.eval, (h.exact hexact).vars, hvar]

theorem bind {origin : Origin} {dst : Operand}
    (hcovers : ∀ {place}, dst.Covers place ↔ origin.Covers place)
    (hl : (e.assign x origin m).Sound k k.left) (hr : (e'.assign x' origin m').Sound k k.right)
    (hx : Knows k e e' l x.formula x'.formula)
    (hm : ∀ place, ¬ origin.Covers place → m.valueAt place = e.machine.valueAt place)
    (hm' : ∀ place, ¬ origin.Covers place → m'.valueAt place = e'.machine.valueAt place)
    (htag : k.exact = true → x.tag = x'.tag) :
    Abreast k (HiddenAfter hidden dst (k.tracked && l)) (e.assign x origin m)
      (e'.assign x' origin m') := by
  refine h.change hl hr (e.extends_assign _ _ _) (e'.extends_assign _ _ _)
    (fun site _ hshown => ?_) h.taint fun hk => (h.exact hk).assign (htag hk) origin m m'
  by_cases hin : origin.Covers site.place
  · obtain ⟨i, hmeaning⟩ := meaning_assign hin
    refine .inr fun v v' hv => ?_
    rw [hmeaning, hmeaning]
    refine congrArg _ (hx.eval_eq v v' ⟨fun htracked => ?_, hv⟩)
    cases l with
    | false => rfl
    | true => exact (hshown (.inl ⟨hcovers.2 hin, by rw [htracked]; rfl⟩)).elim
  · exact .inl ⟨fun hh => hshown (.inr ⟨mt hcovers.1 hin, hh⟩),
      ⟨cell?_assign _ _ _ hin, hm _ hin⟩, cell?_assign _ _ _ hin, hm' _ hin⟩

theorem writeRegister (hroot : k.arch.Has root) (hisRoot : root.isRoot = true)
    (hx : Knows k e e' l x.formula x'.formula) (hwidth : x.formula.width = root.bits)
    (htag : k.exact = true → x.tag = x'.tag) :
    Abreast k (HiddenAfter hidden (.register root) (k.tracked && l))
      (e.assignRoot x root) (e'.assignRoot x' root) :=
  h.bind (Operand.covers_root hisRoot) (h.left.writeRegister hroot hisRoot hx.left hwidth)
    (h.right.writeRegister hroot hisRoot hx.right (hx.width_eq ▸ hwidth)) hx
    (fun _ => valueAt_setRegister hisRoot _) (fun _ => valueAt_setRegister hisRoot _) htag

theorem writeMemory (hx : Knows k e e' l x.formula x'.formula)
    (hwidth : x.formula.width = access.bytes * 8) (htag : k.exact = true → x.tag = x'.tag) :
    Abreast k (HiddenAfter hidden (.memory access) (k.tracked && l))
      (e.assignAccess x access) (e'.assignAccess x' access) :=
  h.bind Operand.covers_memory (h.left.writeMemory hx.left hwidth)
    (h.right.writeMemory hx.right (hx.width_eq ▸ hwidth)) hx
    (fun _ => valueAt_setValue _) (fun _ => valueAt_setValue _) htag

/-- Memory is written with formulas whose present values have the same bytes where nothing
is hidden. -/
theorem writeBytes (hexact : k.exact = false) (hx : x.formula.OverVariables e.scope)
    (hx' : x'.formula.OverVariables e'.scope) (hwidth : x.formula.width = access.bytes * 8)
    (hwidth' : x'.formula.width = access.bytes * 8)
    (hbytes : ∀ address, distance access.address address < access.bytes →
      ¬ hidden (.byte address) →
      (e.context.evaluate x.formula >>> (8 * distance access.address address)).toUInt8 =
        (e'.context.evaluate x'.formula >>> (8 * distance access.address address)).toUInt8) :
    Abreast k hidden
      (e.assignAccess x access) (e'.assignAccess x' access) := by
  have hmax : access.bytes ≤ 16 := hx.bytes_le hwidth
  refine of_machine hexact (h.left.writeMemory hx hwidth) (h.right.writeMemory hx' hwidth')
    (fun site hsite hshown => ?_) h.taint
  cases site with
  | register reg =>
    simp only [assign, readAt, register, root_setValue]
    exact h.read_eq (.register reg) hsite hshown
  | byte address =>
    simp only [assign, readAt, byte_setValue hmax]
    split
    · next hin => rw [hbytes address hin hshown]
    · rw [h.byte_eq hshown]

theorem enter (htag : k.exact = true → x.tag = x'.tag) :
    Abreast k hidden (e.assign x .volatile e.machine) (e'.assign x' .volatile e'.machine) := by
  have hsame : ∀ (d : Engine) (y : Expression),
      d.SameBindings (d.assign y .volatile d.machine) := fun d y =>
    { d.weakens_enter y with cells := fun _ => rfl }
  exact h.rest (hsame e x) (hsame e' x') h.taint
    fun hk => (h.exact hk).assign (htag hk) .volatile _ _

theorem update {id id' : Nat} {change change' : Expression → Expression}
    {symbolic symbolic' : Symbolic} (hs : Updates id change e.symbolic symbolic)
    (ht : Updates id' change' e'.symbolic symbolic')
    (hformula : ∀ x, (change x).formula = x.formula)
    (hformula' : ∀ x, (change' x).formula = x.formula)
    (hchange : k.exact = true → id = id' ∧ ∀ x y, x.tag = y.tag → (change x).tag = (change' y).tag) :
    Abreast k hidden { e with symbolic } { e' with symbolic := symbolic' } := by
  have hsame : ∀ (d : Engine) (id : Nat) (change : Expression → Expression) (symbolic : Symbolic),
      Updates id change d.symbolic symbolic → (∀ x, (change x).formula = x.formula) →
      d.SameBindings { d with symbolic } := fun d id change symbolic hs hformula =>
    { hs.weakens hformula with cells := hs.cell? }
  refine h.rest (hsame e id change symbolic hs hformula) (hsame e' id' change' symbolic' ht hformula')
    h.taint fun hk => ?_
  obtain ⟨rfl, htag⟩ := hchange hk
  exact (h.exact hk).update hs ht htag

theorem withPool (pool pool' : Pool) : Abreast k hidden (e.withPool pool) (e'.withPool pool') := by
  exact h.rest (e.like_withPool pool).sameBindings (e'.like_withPool pool').sameBindings
    h.taint fun hk => { __ := h.exact hk }

/-- Destinations are given a taint, which may hide less than before. -/
theorem retaint {taint taint' : Taint} (htaint : k.tainted = true → taint = taint') :
    Abreast k hidden { e with taint } { e' with taint := taint' } := by
  have hsame : ∀ (d : Engine) (taint : Taint), d.SameBindings { d with taint } := fun d taint =>
    Like.sameBindings ⟨rfl, rfl, rfl, rfl, rfl, rfl, rfl, rfl, rfl⟩
  exact h.rest (hsame e taint) (hsame e' taint') htaint fun hk => { __ := h.exact hk }

end Abreast

end Engine

end Concolic
