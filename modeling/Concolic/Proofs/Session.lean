import Concolic.Proofs.Heredity

/-
  What a context gives out.

  A session is a context in use: requests are made to it, each under the rules
  in force at the time, on formulas that it gave out before and on their
  operands, and its variables are assigned. Every formula given out is well
  formed in the scope of the variables (`Session.wellFormed`), and stays so as
  variables are added. So the lemmas about the constructors and about
  simplification hold of everything that a context ever builds.

  A memory array of a session has an index of 1 to 128 bits. A context may be asked
  for others (`Context.InUse`), and what it gives out is still formed
  (`InUse.formed`).
-/

namespace Concolic

open Formula Word Context Formula

variable {ctx ctx' : Context} {id width : Nat} {f : Formula} {given : List Formula}

/-- Something to ask of a context. -/
inductive Request where
  | constant (value width : Nat)
  | newVariable (width : Nat) (nickname : Option String) (value : Nat)
  | variableFormula (id : Nat)
  | memoryArray (width : Nat)
  | call (call : Call)
  | simplify (f : Formula)

namespace Request

def run : Request → Build Formula
  | constant value width => Build.constant value width
  | newVariable width nickname value => Build.newVariable width nickname value
  | variableFormula id => Build.variableFormula id
  | memoryArray width => Build.memoryArray width
  | call c => c.run
  | simplify f => f.simplify

def About (given : List Formula) : Request → Prop
  | constant _ _ | newVariable _ _ _ | variableFormula _ | memoryArray _ => True
  | call c => ∀ f ∈ c.plain.children, f ∈ given
  | simplify f => f ∈ given

/-- The request is about formulas given out before, and a memory array has an
index of 1 to 128 bits. -/
def Permitted (given : List Formula) : Request → Prop
  | constant _ _ | newVariable _ _ _ | variableFormula _ => True
  | memoryArray width => WordWidth width
  | call c => ∀ f ∈ c.plain.children, f ∈ given
  | simplify f => f ∈ given

theorem Permitted.about {request : Request} (h : request.Permitted given) :
    request.About given := by
  cases request with
  | memoryArray => trivial
  | _ => exact h

end Request

/-- The contexts in use, each with the formulas that it gave out. -/
inductive Session : Context → List Formula → Prop where
  | start : Session {} []
  | answered {ctx ctx' : Context} {given : List Formula} {f : Formula} (request : Request)
      (rules : Rules) (before : Session ctx given) (permitted : request.Permitted given)
      (answer : request.run rules ctx = .ok f ctx') : Session ctx' (f :: given)
  | refused {ctx ctx' : Context} {given : List Formula} {error : Error} (request : Request)
      (rules : Rules) (before : Session ctx given) (permitted : request.Permitted given)
      (answer : request.run rules ctx = .error error ctx') : Session ctx' given
  | opened {ctx : Context} {given : List Formula} {f g : Formula} (before : Session ctx given)
      (whole : f ∈ given) (operand : g ∈ f.children) : Session ctx (g :: given)
  | assigned {ctx ctx' : Context} {given : List Formula} (id value : Nat)
      (before : Session ctx given) (answer : ctx.setVariableValue id value = .ok ctx') :
      Session ctx' given
  | commented {ctx ctx' : Context} {given : List Formula} (id : Nat) (comment : String)
      (before : Session ctx given) (answer : ctx.setVariableComment id comment = .ok ctx') :
      Session ctx' given

/-! The variables. -/

namespace Context

/-- Every variable has a width that a word can have, and a value of that
width. -/
def Bounded (ctx : Context) : Prop :=
  ∀ (id : Nat) (entry : Variable), ctx.vars[id]? = some entry →
    WordWidth entry.width ∧ entry.value < Word.modulus entry.width

theorem scope_eq_some :
    ctx.scope id = some width ↔ ∃ entry, ctx.vars[id]? = some entry ∧ entry.width = width := by
  simp [scope]

theorem Bounded.fits (h : ctx.Bounded) (byte : Address → UInt8) :
    (ctx.valuation byte).Fits ctx.scope := by
  intro id width hid
  obtain ⟨entry, hentry, rfl⟩ := scope_eq_some.1 hid
  simp only [valuation, variableValue, hentry]
  exact (h id entry hentry).2

def addVariable (ctx : Context) (width : Nat) (nickname : Option String) (value : Nat) : Context :=
  { ctx with
    vars := ctx.vars.push
      { id := ctx.vars.size, width, nickname, value := Word.truncate width value } }

theorem addVariable_bounded (h : ctx.Bounded) (hw : WordWidth width)
    (nickname : Option String) (value : Nat) : (ctx.addVariable width nickname value).Bounded := by
  intro id entry hentry
  simp only [addVariable, Array.getElem?_push] at hentry
  split at hentry
  · cases hentry
    exact ⟨hw, truncate_lt _ _⟩
  · exact h id entry hentry

theorem addVariable_extends (ctx : Context) (width : Nat) (nickname : Option String)
    (value : Nat) : (ctx.addVariable width nickname value).scope.Extends ctx.scope := by
  intro id size hid
  obtain ⟨entry, hentry, hsize⟩ := scope_eq_some.1 hid
  have hlt : id < ctx.vars.size := (getElem?_eq_some_iff.1 hentry).1
  refine scope_eq_some.2 ⟨entry, ?_, hsize⟩
  simp only [addVariable, Array.getElem?_push, hentry]
  rw [if_neg (by omega)]

theorem addVariable_scope (ctx : Context) (width : Nat) (nickname : Option String) (value : Nat) :
    (ctx.addVariable width nickname value).scope ctx.vars.size = some width := by
  simp [scope, addVariable]

/-- A change to a variable that keeps its width and a value within it keeps the
scope. -/
theorem updateVariable_bounded {change : Variable → Variable} (h : ctx.Bounded)
    (hrun : ctx.updateVariable id change = .ok ctx')
    (hwidth : ∀ entry, (change entry).width = entry.width)
    (hvalue : ∀ entry, entry.value < modulus entry.width →
      (change entry).value < modulus entry.width) : ctx'.Bounded ∧ ctx'.scope = ctx.scope := by
  unfold updateVariable at hrun
  split at hrun
  · next old hold =>
    cases hrun
    have hget : ∀ i, (ctx.vars.setIfInBounds id (change old))[i]? =
        if id = i then (ctx.vars[i]?).map fun _ => change old else ctx.vars[i]? := by
      intro i
      rw [Array.getElem?_setIfInBounds]
      have hlt : id < ctx.vars.size := (getElem?_eq_some_iff.1 hold).1
      split
      · next heq => subst heq; simp [hlt]
      · rfl
    constructor
    · intro i entry hentry
      rw [hget] at hentry
      split at hentry
      · next heq =>
        subst heq
        rw [hold] at hentry
        cases hentry
        rw [hwidth]
        exact ⟨(h id old hold).1, hvalue old (h id old hold).2⟩
      · exact h i entry hentry
    · funext i
      simp only [scope, hget]
      split
      · next heq =>
        subst heq
        simp [hold, hwidth]
      · rfl
  · cases hrun

end Context

namespace Build

def answer? {α : Type} : EStateM.Result Error Context α → Option α
  | .ok a _ => some a
  | .error _ _ => none

def after {α : Type} : EStateM.Result Error Context α → Context
  | .ok _ ctx => ctx
  | .error _ ctx => ctx

theorem eq_ok_of_answer? {α : Type} {r : EStateM.Result Error Context α} {a : α}
    (h : answer? r = some a) : r = .ok a (after r) := by
  cases r with
  | ok b ctx =>
    cases h
    rfl
  | error => cases h

theorem outcome_inv {α : Type} {r : Except Error α} {pool : Pool} :
    (∀ a, outcome r { ctx with pool } = .ok a ctx' → r = .ok a ∧ ctx'.vars = ctx.vars) ∧
      ∀ error, outcome r { ctx with pool } = .error error ctx' → ctx'.vars = ctx.vars := by
  cases r with
  | ok b =>
    refine ⟨fun a ha => ?_, fun error he => ?_⟩
    · cases ha
      exact ⟨rfl, rfl⟩
    · cases he
  | error e =>
    refine ⟨fun a ha => ?_, fun error he => ?_⟩
    · cases ha
    · cases he
      rfl

theorem newVariable_eq (width : Nat) (nickname : Option String) (value : Nat) (rules : Rules)
    (ctx : Context) :
    newVariable width nickname value rules ctx =
      if WordWidth width then
        intern (.var ctx.vars.size width) rules (ctx.addVariable width nickname value)
      else .error (.invalidWidth (.variableWidth width)) ctx := by
  by_cases hw : WordWidth width
  · rw [newVariable, if_pos (show 1 ≤ width ∧ width ≤ limit from hw), if_pos hw]
    rfl
  · rw [newVariable, if_neg (show ¬ (1 ≤ width ∧ width ≤ limit) from hw), if_neg hw]
    rfl

theorem run_newVariable (hw : WordWidth width) (nickname : Option String) (value : Nat)
    (rules : Rules) (ctx : Context) :
    ∃ pool, newVariable width nickname value rules ctx =
      .ok (.var ctx.vars.size width) { ctx.addVariable width nickname value with pool } := by
  rw [newVariable_eq, if_pos hw]
  have hintern : Answers rules (intern (.var ctx.vars.size width)) _ := .intern _
  exact hintern (ctx.addVariable width nickname value)

theorem newVariable_error (hw : ¬ WordWidth width) (nickname : Option String)
    (value : Nat) (rules : Rules) :
    Answers rules (newVariable width nickname value)
      (.error (.invalidWidth (.variableWidth width))) := by
  intro ctx
  rw [newVariable_eq, if_neg hw]
  exact ⟨ctx.pool, rfl⟩

theorem variableFormula_eq (id : Nat) (rules : Rules) (ctx : Context) :
    variableFormula id rules ctx = match ctx.findVariable id with
      | .ok entry => intern (.var id entry.width) rules ctx
      | .error error => .error error ctx := by
  show (match ctx.findVariable id with
    | .ok entry => intern (.var id entry.width)
    | .error error => throw error : Build Formula) rules ctx = _
  cases ctx.findVariable id <;> rfl

theorem run_variableFormula (id : Nat) (rules : Rules) (ctx : Context) :
    ∃ pool, variableFormula id rules ctx = outcome
      ((ctx.findVariable id).map fun entry => .var id entry.width) { ctx with pool } := by
  rw [variableFormula_eq]
  cases ctx.findVariable id with
  | ok entry =>
    have hintern : Answers rules (intern (.var id entry.width)) _ := .intern _
    exact hintern ctx
  | error error => exact ⟨ctx.pool, rfl⟩

end Build

/-- What one request does to the variables, and what is so of a formula that it gives
out. -/
theorem Request.run_spec {kept : Scope → Formula → Prop} (hk : Stable kept) {request : Request}
    (rules : Rules) (hgiven : ∀ f ∈ given, kept ctx.scope f) (hb : ctx.Bounded)
    (ha : request.About given)
    (hmemory : ∀ width, request = .memoryArray width → kept ctx.scope (.memory width)) :
    (Build.after (request.run rules ctx)).Bounded ∧
    (Build.after (request.run rules ctx)).scope.Extends ctx.scope ∧
    ∀ f, Build.answer? (request.run rules ctx) = some f →
      kept (Build.after (request.run rules ctx)).scope f := by
  -- a request that adds no variable
  have fixed : ∀ {x : Build Formula} {r : Except Error Formula},
      (∃ pool, x rules ctx = Build.outcome r { ctx with pool }) →
      (∀ f, r = .ok f → kept ctx.scope f) →
      (Build.after (x rules ctx)).Bounded ∧
      (Build.after (x rules ctx)).scope.Extends ctx.scope ∧
      ∀ f, Build.answer? (x rules ctx) = some f →
        kept (Build.after (x rules ctx)).scope f := by
    intro x r hx hkept
    obtain ⟨pool, hrun⟩ := hx
    rw [hrun]
    cases r with
    | ok g =>
      refine ⟨hb, .refl _, fun f hf => ?_⟩
      cases hf
      exact hkept g rfl
    | error error => exact ⟨hb, .refl _, fun f hf => by cases hf⟩
  cases request with
  | constant value width =>
    have hx : Build.Ensures rules (Build.constant value width) (kept ctx.scope) :=
      Build.constant_kept (hk.hereditary ctx.scope) value width
    obtain ⟨r, hr, hf, -⟩ := hx
    exact fixed (hr ctx) hf
  | newVariable width nickname value =>
    by_cases hw : WordWidth width
    · obtain ⟨pool, hrun⟩ := Build.run_newVariable hw nickname value rules ctx
      simp only [run, hrun]
      refine ⟨addVariable_bounded hb hw nickname value,
        ctx.addVariable_extends width nickname value, fun f hf => ?_⟩
      cases hf
      exact hk.var hw (ctx.addVariable_scope width nickname value)
    · exact fixed (Build.newVariable_error hw nickname value rules ctx) fun f hf => by cases hf
  | variableFormula id =>
    refine fixed (Build.run_variableFormula id rules ctx) fun f hf => ?_
    unfold findVariable at hf
    split at hf
    · next entry hentry =>
      cases hf
      exact hk.var (hb id entry hentry).1 (scope_eq_some.2 ⟨entry, hentry, rfl⟩)
    · cases hf
  | memoryArray width =>
    have hx : Build.Answers rules (Build.memoryArray width) (.ok (.memory width)) := .intern _
    refine fixed (hx ctx) fun f hf => ?_
    cases hf
    exact hmemory width rfl
  | call call =>
    obtain ⟨r, hr, hf, -⟩ := call.keeps (hk.hereditary ctx.scope) rules
      fun f hf => hgiven f (ha f hf)
    exact fixed (hr ctx) hf
  | simplify f =>
    obtain ⟨r, hr, hf, -⟩ := simplify_keeps (hk.hereditary ctx.scope) rules (hgiven f ha)
    exact fixed (hr ctx) hf

theorem Context.setVariableValue_bounded {id value : Nat} (hb : ctx.Bounded)
    (h : ctx.setVariableValue id value = .ok ctx') : ctx'.Bounded ∧ ctx'.scope = ctx.scope := by
  exact updateVariable_bounded hb h (fun _ => rfl) fun _ _ => truncate_lt _ _

theorem Context.setVariableComment_bounded {comment : String} (hb : ctx.Bounded)
    (h : ctx.setVariableComment id comment = .ok ctx') : ctx'.Bounded ∧ ctx'.scope = ctx.scope := by
  exact updateVariable_bounded hb h (fun _ => rfl) fun _ h => h

/-- Everything given out is well formed in the scope of the variables. -/
theorem Session.wellFormed (h : Session ctx given) :
    ctx.Bounded ∧ ∀ f ∈ given, f.WellFormed ctx.scope := by
  -- a request that is permitted, in a context where the invariant holds
  have asked : ∀ {ctx : Context} {given : List Formula} {request : Request} (rules : Rules),
      (ctx.Bounded ∧ ∀ f ∈ given, f.WellFormed ctx.scope) → request.Permitted given → _ :=
    fun {ctx given request} rules ih permitted =>
      request.run_spec WellFormed.stable rules ih.2 ih.1 permitted.about
        fun width hwidth => by subst hwidth; exact permitted
  induction h with
  | start => exact ⟨fun id entry h => by simp at h, fun f hf => by simp at hf⟩
  | answered request rules _ permitted answer ih =>
    have hspec := asked rules ih permitted
    rw [answer] at hspec
    obtain ⟨hb, hext, hf⟩ := hspec
    refine ⟨hb, fun g hg => ?_⟩
    rcases List.mem_cons.1 hg with rfl | hg
    · exact hf g rfl
    · exact (ih.2 g hg).mono hext
  | refused request rules _ permitted answer ih =>
    have hspec := asked rules ih permitted
    rw [answer] at hspec
    exact ⟨hspec.1, fun g hg => (ih.2 g hg).mono hspec.2.1⟩
  | opened _ whole operand ih =>
    refine ⟨ih.1, fun g hg => ?_⟩
    rcases List.mem_cons.1 hg with rfl | hg
    · exact (ih.2 _ whole).children operand
    · exact ih.2 g hg
  | assigned id value _ answer ih =>
    obtain ⟨hb, hscope⟩ := setVariableValue_bounded ih.1 answer
    rw [hscope]
    exact ⟨hb, ih.2⟩
  | commented id comment _ answer ih =>
    obtain ⟨hb, hscope⟩ := setVariableComment_bounded ih.1 answer
    rw [hscope]
    exact ⟨hb, ih.2⟩

/-! Contexts asked for memory arrays of any index width. -/

namespace Context

/-- One use of a context, with the formulas given out before and after it. -/
inductive Use : Context → List Formula → Context → List Formula → Prop where
  | asked {ctx : Context} {given : List Formula} (request : Request) (rules : Rules)
      (about : request.About given) :
      Use ctx given (Build.after (request.run rules ctx))
        ((Build.answer? (request.run rules ctx)).toList ++ given)
  | opened {ctx : Context} {given : List Formula} {f g : Formula} (whole : f ∈ given)
      (operand : g ∈ f.children) : Use ctx given ctx (g :: given)
  | assigned {ctx ctx' : Context} {given : List Formula} (id value : Nat)
      (answer : ctx.setVariableValue id value = .ok ctx') : Use ctx given ctx' given
  | commented {ctx ctx' : Context} {given : List Formula} (id : Nat) (comment : String)
      (answer : ctx.setVariableComment id comment = .ok ctx') : Use ctx given ctx' given

/-- The contexts that uses lead to, each with the formulas that it gave out. -/
inductive InUse : Context → List Formula → Prop where
  | start : InUse {} []
  | next {ctx ctx' : Context} {given given' : List Formula} (before : InUse ctx given)
      (use : Use ctx given ctx' given') : InUse ctx' given'

theorem Use.formed {given' : List Formula} (h : Use ctx given ctx' given') (hb : ctx.Bounded)
    (hgiven : ∀ f ∈ given, f.Formed ctx.scope) :
    ctx'.Bounded ∧ ctx'.scope.Extends ctx.scope ∧ ∀ f ∈ given', f.Formed ctx'.scope := by
  cases h with
  | asked request rules about =>
    obtain ⟨hb', hext, hf⟩ := request.run_spec Formed.stable rules hgiven hb about
      fun width _ => .intro trivial trivial (by simp)
    refine ⟨hb', hext, fun g hg => ?_⟩
    rcases List.mem_append.1 hg with hg | hg
    · exact hf g (Option.mem_toList.1 hg)
    · exact (hgiven g hg).mono hext
  | opened whole operand =>
    refine ⟨hb, .refl _, fun g hg => ?_⟩
    rcases List.mem_cons.1 hg with rfl | hg
    · exact (hgiven _ whole).operand operand
    · exact hgiven g hg
  | assigned id value answer =>
    obtain ⟨hb', hscope⟩ := setVariableValue_bounded hb answer
    rw [hscope]
    exact ⟨hb', .refl _, hgiven⟩
  | commented id comment answer =>
    obtain ⟨hb', hscope⟩ := setVariableComment_bounded hb answer
    rw [hscope]
    exact ⟨hb', .refl _, hgiven⟩

theorem bounded_of_vars (h : ctx.vars.size = 0) : ctx.Bounded := by
  intro id entry hentry
  rw [Array.getElem?_eq_none (by omega)] at hentry
  cases hentry

theorem bounded_empty : ({} : Context).Bounded := bounded_of_vars rfl

theorem InUse.formed (h : InUse ctx given) : ctx.Bounded ∧ ∀ f ∈ given, f.Formed ctx.scope := by
  induction h with
  | start => exact ⟨bounded_empty, fun f hf => by simp at hf⟩
  | next _ use ih =>
    obtain ⟨hb, -, hgiven⟩ := use.formed ih.1 ih.2
    exact ⟨hb, hgiven⟩

end Context

/-- A session is a use of the context. -/
theorem Session.inUse (h : Session ctx given) : ctx.InUse given := by
  induction h with
  | start => exact .start
  | answered request rules _ permitted answer ih
  | refused request rules _ permitted answer ih =>
    have hnext := ih.next (.asked request rules permitted.about)
    rwa [answer] at hnext
  | opened _ whole operand ih => exact ih.next (.opened whole operand)
  | assigned id value _ answer ih => exact ih.next (.assigned id value answer)
  | commented id comment _ answer ih => exact ih.next (.commented id comment answer)

/-! Sessions that compute: a request and the context it leads to. -/

theorem Session.request (request : Request) (rules : Rules) (before : Session ctx given)
    (permitted : request.Permitted given) (h : Build.answer? (request.run rules ctx) = some f) :
    Session (Build.after (request.run rules ctx)) (f :: given) :=
  .answered request rules before permitted (Build.eq_ok_of_answer? h)

theorem Context.InUse.request (request : Request) (rules : Rules) (before : ctx.InUse given)
    (about : request.About given) (h : Build.answer? (request.run rules ctx) = some f) :
    (Build.after (request.run rules ctx)).InUse (f :: given) := by
  have hnext := before.next (.asked request rules about)
  rwa [h] at hnext

theorem session_sum : ∃ ctx, Session ctx
    [.arith .add (.var 0 8) (.constant 0 8), .constant 0 8, .var 0 8] ∧
    Build.answer? ((arith .add (.var 0 8) (.constant 0 8)).simplify ⟨true, true⟩ ctx) =
      some (.var 0 8) := by
  have one := Session.request (.newVariable 8 none 7) ⟨false, false⟩ .start trivial
    (f := .var 0 8) (by decide +kernel)
  have two := one.request (.constant 0 8) ⟨false, false⟩ trivial
    (f := .constant 0 8) (by decide +kernel)
  have three := two.request (.call (.arith .add (.var 0 8) (.constant 0 8))) ⟨false, false⟩
    (f := .arith .add (.var 0 8) (.constant 0 8)) (by simp [Request.Permitted]) (by decide +kernel)
  exact ⟨_, three, by decide +kernel⟩

/-- **Constructors keep the meaning.** Whatever rules are in force, a constructor
fails exactly on operands that do not go together, and else gives a formula with
the width and, for all values of the variables and all memories, the value of
its plain operator; of an array, with the same byte everywhere. -/
theorem constructor_keeps_meaning {ctx : Context} {given : List Formula} (h : Session ctx given)
    (call : Call) (hc : ∀ f ∈ call.plain.children, f ∈ given) (rules : Rules) :
    (¬ call.plain.Lawful →
      ∃ fault ctx', call.run rules ctx = .error (.invalidWidth fault) ctx') ∧
    (call.plain.Lawful → ∃ f ctx', call.run rules ctx = .ok f ctx' ∧
      f.width = call.plain.width ∧
      ∀ v, v.Fits ctx.scope → f.value v = call.plain.value v ∧
        (call.plain.isArray = true →
          ∀ address, f.readArray v address = call.plain.readArray v address)) := by
  have hchildren : ∀ f ∈ call.plain.children, f.WellFormed ctx.scope :=
    fun f hf => h.wellFormed.2 f (hc f hf)
  constructor
  · intro hl
    obtain ⟨fault, hfault⟩ := call.refuses rules hl
    obtain ⟨pool, hrun⟩ := hfault ctx
    exact ⟨fault, { ctx with pool }, hrun⟩
  · intro hl
    obtain ⟨f, hf, hs, -⟩ := call.builds rules (Call.wellFormed_plain hl hchildren)
    obtain ⟨pool, hrun⟩ := hf ctx
    refine ⟨f, { ctx with pool }, hrun, hs.width_eq, fun v hv => ⟨?_, fun harray => ?_⟩⟩
    · rw [value_eq_eval, value_eq_eval, hs.eval_eq v hv]
    · exact hs.readArray_eq harray v hv

/-- The sum of a variable and zero, built under both rules, has the value of the
sum. -/
theorem constructor_keeps_meaning_sum : ∃ ctx given, Session ctx given ∧
    (∀ f ∈ (Call.arith .add (.var 0 8) (.constant 0 8)).plain.children, f ∈ given) ∧
    (Call.arith .add (.var 0 8) (.constant 0 8)).plain.Lawful ∧
    ∃ f ctx', (Call.arith .add (.var 0 8) (.constant 0 8)).run ⟨true, true⟩ ctx = .ok f ctx' ∧
      f.width = 8 ∧ ∀ v, v.Fits ctx.scope →
        f.value v = (arith .add (.var 0 8) (.constant 0 8)).value v := by
  obtain ⟨ctx, hs, -⟩ := session_sum
  have hl : (Call.arith .add (.var 0 8) (.constant 0 8)).plain.Lawful := by decide
  have hc : ∀ f ∈ (Call.arith .add (.var 0 8) (.constant 0 8)).plain.children,
      f ∈ [arith .add (.var 0 8) (.constant 0 8), .constant 0 8, .var 0 8] := by
    simp
  obtain ⟨f, ctx', hrun, hw, hv⟩ := (constructor_keeps_meaning hs _ hc ⟨true, true⟩).2 hl
  exact ⟨ctx, _, hs, hc, hl, f, ctx', hrun, hw, fun v hfits => (hv v hfits).1⟩

/-- **Simplification keeps the meaning.** A formula that simplification gives has
the width of the formula it was asked of and, for all values of the variables and
all memories, its value. -/
theorem simplify_keeps_meaning {ctx ctx' : Context} {given : List Formula}
    (h : Session ctx given) {f g : Formula} (hf : f ∈ given) (rules : Rules)
    (hrun : f.simplify rules ctx = .ok g ctx') :
    g.width = f.width ∧ ∀ v, v.Fits ctx.scope → g.value v = f.value v := by
  obtain ⟨r, hr, hs⟩ := simplify_standsFor (h.wellFormed.2 f hf) rules
  obtain ⟨pool, hanswer⟩ := hr ctx
  rw [hanswer] at hrun
  have hstands := hs g (Build.outcome_inv.1 g hrun).1
  refine ⟨hstands.width_eq, fun v hv => ?_⟩
  rw [value_eq_eval, value_eq_eval, hstands.eval_eq v hv]

/-- Simplifying the sum of a variable and zero gives the variable. -/
theorem simplify_keeps_meaning_sum : ∃ ctx ctx' given, Session ctx given ∧
    arith .add (.var 0 8) (.constant 0 8) ∈ given ∧
    (arith .add (.var 0 8) (.constant 0 8)).simplify ⟨true, true⟩ ctx = .ok (.var 0 8) ctx' ∧
    (var 0 8).width = (arith .add (.var 0 8) (.constant 0 8)).width ∧
    ∀ v, v.Fits ctx.scope →
      (var 0 8).value v = (arith .add (.var 0 8) (.constant 0 8)).value v := by
  obtain ⟨ctx, hs, hanswer⟩ := session_sum
  have hrun := Build.eq_ok_of_answer? hanswer
  have hmem : arith .add (.var 0 8) (.constant 0 8) ∈
      [arith .add (.var 0 8) (.constant 0 8), .constant 0 8, .var 0 8] := by simp
  exact ⟨ctx, _, _, hs, hmem, hrun, simplify_keeps_meaning hs hmem ⟨true, true⟩ hrun⟩

end Concolic
