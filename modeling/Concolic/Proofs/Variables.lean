import Mathlib.Data.List.Forall2
import Concolic.Proofs.Session

/-
  Formulas over the variables.

  The value of a formula without memory rests on the variables alone
  (`Context.Gives`), and it stays as it is when variables are added
  (`Gives.later`). The constructors build such formulas from such formulas
  (`Ensures.call`).
-/

namespace Concolic

open Formula Build

variable {ctx ctx' : Context} {f g : Formula} {value width : Nat} {v v' : Valuation}

/-- A well-formed word over the variables, in which no memory occurs. -/
structure Formula.OverVariables (scope : Scope) (f : Formula) : Prop where
  wellFormed : f.WellFormed scope
  memoryless : f.Memoryless

namespace Formula

variable {scope : Scope}

/-- The variables in the tree of a formula, from left to right. -/
def occurrences : Formula → List Nat
  | constant _ _ | memory _ => []
  | var id _ => [id]
  | arith _ x y | compare _ x y | concat x y | select x y => occurrences x ++ occurrences y
  | unary _ x | extract _ _ x | zeroExtend _ x | signExtend _ x => occurrences x
  | ite x y z | store x y z => occurrences x ++ occurrences y ++ occurrences z

theorem occurrences_eq (f : Formula) :
    f.occurrences = f.var?.toList ++ f.children.flatMap occurrences := by
  cases f <;> simp [occurrences, var?]

theorem symbolic_iff (f : Formula) : f.symbolic = true ↔ f.occurrences ≠ [] := by
  induction f <;> simp_all [symbolic, occurrences, or_iff_not_imp_left]

theorem Formed.occurs (h : f.Formed scope) {id : Nat} (hid : id ∈ f.occurrences) :
    ∃ width, scope id = some width := by
  induction h with
  | @intro f range _ _ ih =>
    rw [occurrences_eq] at hid
    simp only [List.mem_append, List.mem_flatMap] at hid
    rcases hid with hid | ⟨g, hg, hid⟩
    · cases f with
      | var k width =>
        obtain rfl : id = k := by simpa [var?] using hid
        exact ⟨width, range.2⟩
      | _ => simp [var?] at hid
    · exact ih g hg hid

/-- The variables of a formula, and the memory if there is any in it, decide its value. -/
theorem eval_congr (hv : ∀ id ∈ f.occurrences, v.var id = v'.var id)
    (hb : f.Memoryless ∨ v.byte = v'.byte) : f.eval v = f.eval v' ∧
      (v.byte = v'.byte → ∀ address, f.readArray v address = f.readArray v' address) := by
  rcases hb with hb | hb <;> induction f <;>
    simp only [occurrences, List.mem_append, or_imp, forall_and] at hv <;>
    simp_all [eval, readArray, Memoryless]

theorem OverVariables.eval_congr (hv : ∀ id width, scope id = some width → v.var id = v'.var id)
    (h : f.OverVariables scope) : f.eval v = f.eval v' := by
  refine (Formula.eval_congr (fun id hid => ?_) (.inl h.memoryless)).1
  obtain ⟨width, hwidth⟩ := h.wellFormed.formed.occurs hid
  exact hv id width hwidth

/-- A formula without variables and memory has one value. -/
theorem eval_of_not_symbolic (hm : f.Memoryless) (h : f.symbolic = false) (v v' : Valuation) :
    f.eval v = f.eval v' := by
  refine (eval_congr (fun id hid => ?_) (.inl hm)).1
  rw [f.symbolic_iff.2 (List.ne_nil_of_mem hid)] at h
  cases h

theorem StandsFor.overVariables (h : f.StandsFor scope g) (hm : g.Memoryless) :
    f.OverVariables scope := ⟨h.wellFormed, h.memoryless hm⟩

theorem OverVariables.children (h : f.OverVariables scope) (hg : g ∈ f.children) :
    g.OverVariables scope :=
  ⟨h.wellFormed.children hg, h.memoryless.operand hg⟩

theorem Hereditary.overVariables (scope : Scope) : Hereditary scope (OverVariables scope) where
  formed h := h.wellFormed.formed
  constant hw hv := ⟨⟨hw, hv⟩, trivial⟩
  operand h hg := h.children hg
  operator hl hne hc := ⟨.of_operands hl hne fun g hg => (hc g hg).wellFormed,
    .of_operands hl hne fun g hg => (hc g hg).memoryless⟩

end Formula

theorem Call.answers_overVariables {scope : Scope} (rules : Rules) {call : Call}
    (hl : call.plain.Lawful) (hc : ∀ f ∈ call.plain.children, f.OverVariables scope) :
    ∃ f, Answers rules call.run (.ok f) ∧
      f.Renders scope (OverVariables scope) call.plain :=
  (call.renders (.overVariables scope) rules hl hc).answers
    (wellFormed_plain hl fun f hf => (hc f hf).wellFormed).width_range

namespace Context

/-- The second context has every variable of the first, with its value. -/
def Later (ctx ctx' : Context) : Prop :=
  ∀ (id : Nat) (entry : Variable), ctx.vars[id]? = some entry → ctx'.vars[id]? = some entry

theorem Later.refl (ctx : Context) : ctx.Later ctx := fun _ _ h => h

theorem Later.trans {a b c : Context} (h₁ : a.Later b) (h₂ : b.Later c) : a.Later c :=
  fun id entry h => h₂ id entry (h₁ id entry h)

theorem Later.scope (h : ctx.Later ctx') : ctx'.scope.Extends ctx.scope := by
  intro id width hid
  obtain ⟨entry, hentry, hwidth⟩ := scope_eq_some.1 hid
  exact scope_eq_some.2 ⟨entry, h id entry hentry, hwidth⟩

theorem addVariable_later (ctx : Context) (width : Nat) (nickname : Option String)
    (value : Nat) : ctx.Later (ctx.addVariable width nickname value) := by
  intro id entry hentry
  have hlt : id < ctx.vars.size := (getElem?_eq_some_iff.1 hentry).1
  simp only [addVariable, Array.getElem?_push, hentry]
  rw [if_neg (by omega)]

/-- The value over a memory of zeros is the value over any. -/
theorem evaluate_eq_eval (h : f.OverVariables ctx.scope) (byte : Address → UInt8) :
    ctx.evaluate f = f.eval (ctx.valuation byte) := by
  rw [evaluate, value_eq_eval]
  have hv : ∀ id width, ctx.scope id = some width →
      (ctx.valuation fun _ => 0).var id = (ctx.valuation byte).var id := fun _ _ _ => rfl
  exact h.eval_congr hv

theorem Later.evaluate (hle : ctx.Later ctx') (h : f.OverVariables ctx.scope) :
    ctx'.evaluate f = ctx.evaluate f := by
  rw [Context.evaluate, Context.evaluate, value_eq_eval, value_eq_eval]
  refine h.eval_congr fun id width hid => ?_
  obtain ⟨entry, hentry, -⟩ := scope_eq_some.1 hid
  simp only [valuation, variableValue, hentry, hle id entry hentry]

/-- The formula is a word of `width` bits over the variables, with this value. -/
structure Gives (ctx : Context) (f : Formula) (width value : Nat) : Prop where
  overVariables : f.OverVariables ctx.scope
  width_eq : f.width = width
  value_eq : ctx.evaluate f = value

theorem Gives.later (h : ctx.Gives f width value) (hle : ctx.Later ctx') :
    ctx'.Gives f width value where
  overVariables := ⟨h.overVariables.wellFormed.mono hle.scope, h.overVariables.memoryless⟩
  width_eq := h.width_eq
  value_eq := (hle.evaluate h.overVariables).trans h.value_eq

theorem Gives.lt (h : ctx.Gives f width value) (hb : ctx.Bounded) : value < Word.modulus width := by
  rw [← h.value_eq, ← h.width_eq, evaluate_eq_eval h.overVariables fun _ => 0]
  exact h.overVariables.wellFormed.eval_lt (hb.fits _)

theorem gives_evaluate (h : f.OverVariables ctx.scope) :
    ctx.Gives f f.width (ctx.evaluate f) := ⟨h, rfl, rfl⟩

theorem gives_addVariable (ctx : Context) (hw : WordWidth width)
    (hvalue : value < Word.modulus width) (nickname : Option String) (pool : Pool) :
    ({ ctx.addVariable width nickname value with pool } : Context).Gives
      (.var ctx.vars.size width) width value := by
  refine ⟨⟨⟨hw, ctx.addVariable_scope width nickname value⟩, trivial⟩, rfl, ?_⟩
  rw [evaluate, value_eq_eval]
  simp [eval, valuation, variableValue, addVariable, Word.truncate_of_lt hvalue]

end Context

/-! Constructions. -/

namespace Build

namespace Ensures

variable {rules : Rules}

variable {scope : Scope} {f g : Formula}

theorem call {call : Call} (hc : ∀ f ∈ call.plain.children, f.OverVariables scope) :
    Ensures rules call.run fun f => f.OverVariables scope ∧ f.width = call.plain.width :=
  (call.keptAs (.overVariables scope) rules hc False.elim).mono id
    fun _ hf => ⟨hf.2.kept, hf.2.width_eq⟩

theorem concat (hf : f.OverVariables scope) (hg : g.OverVariables scope) :
    Ensures rules (concat f g) (OverVariables scope) := by
  have hc : ∀ k ∈ (Call.concat f g).plain.children, k.OverVariables scope := by
    simpa using ⟨hf, hg⟩
  exact (call hc).mono fun _ h => h.1

theorem concatMany {l : List Formula} (hl : ∀ f ∈ l, f.OverVariables scope) :
    Ensures rules (concatMany l) (OverVariables scope) := by
  cases l with
  | nil => exact throw _
  | cons f l =>
    exact .foldlM l (fun g hg f hf => concat hf (hl g (by simp [hg]))) (hl f (by simp))

end Ensures

theorem answers_mapM (rules : Rules) {ι α : Type} {f : ι → Build α} {P : ι → α → Prop} (l : List ι)
    (h : ∀ i ∈ l, ∃ a, Answers rules (f i) (.ok a) ∧ P i a) :
    ∃ as, Answers rules (l.mapM f) (.ok as) ∧ List.Forall₂ P l as := by
  induction l with
  | nil =>
    exact ⟨[], .pure [], .nil⟩
  | cons i l ih =>
    obtain ⟨a, ha, hP⟩ := h i (by simp)
    obtain ⟨as, has, hPs⟩ := ih fun j hj => h j (by simp [hj])
    simp only [List.mapM_cons]
    exact ⟨a :: as, ha.bind (has.bind (.pure _)), .cons hP hPs⟩

end Build

end Concolic
