import Concolic.Proofs.Lockstep.Diagonal
import Concolic.Proofs.Safety.Engines

/-
  The parts of an instruction end without a fatal error.

  `Premises` says what may be relied on while an instruction runs: that the engine holds
  well-formed formulas only, and what is known of the operands. Under it, `Safe` is said
  of the parts that make no variable: they keep what is relied on, also where they fail,
  and fail with no fatal error if the premises are `sure`. `Ends` is said of parts that
  may make variables, after which the formulas are well formed in a larger scope.

  A run that keeps what is relied on is in lockstep with itself (`Premises.diagonal`), so
  every operation ends so (`Premises.action`). What an operation asks of its operands
  beyond their widths is in `Simulation.Fits`.

  Where the premises are not sure nothing is assumed of the operands, and the two say
  that any instruction whatever leaves well-formed formulas behind.
-/

namespace Concolic

open Formula (WordWidth)
open Step Engine Operand Symbolic

variable {access : Access} {f index : Formula} {s : Frame} {α β : Type} {ctx : Context}
  {dst : Operand} {sure : Prop} {reg : Register} {rules : Rules} {scope : Scope}

/-- An immediate and an access have the width of a word, and a register is the
architecture's. The address of an access may rest on any known register. -/
def Operand.Sized (arch : Architecture) : Operand → Prop
  | .immediate imm => WordWidth imm.bits
  | .register reg => arch.Has reg
  | .memory access => WordWidth access.bits ∧ (Operand.memory access).Known

/-- The operand has the width of a word and rests on known registers. -/
def Operand.Worded (op : Operand) : Prop := WordWidth op.bits ∧ op.Known

theorem Operand.Sized.worded {arch : Architecture} {op : Operand} (h : op.Sized arch) :
    op.Worded := by
  cases op with
  | immediate imm => exact ⟨h, trivial⟩
  | register reg => exact ⟨Architecture.Has.wordWidth h, arch, h⟩
  | memory access => exact h

/-- How a run may end: with an answer, or with an error that is no fatal one if
`sure`. -/
def Harmless {σ α : Type} (sure : Prop) (answers : α → σ → Prop) (errors : σ → Prop) :
    EStateM.Result Error σ α → Prop
  | .ok a s => answers a s
  | .error e s => errors s ∧ (sure → e.isFatal = false)

theorem Harmless.mono {σ : Type} {answers answers' : α → σ → Prop} {errors errors' : σ → Prop}
    {r : EStateM.Result Error σ α} (h : Harmless sure answers errors r)
    (ha : ∀ a s, answers a s → answers' a s) (he : ∀ s, errors s → errors' s) :
    Harmless sure answers' errors' r := by
  cases r with
  | ok a s => exact ha a s h
  | error e s => exact ⟨he s h.1, h.2⟩

theorem Harmless.bind {answers : α → Frame → Prop} {answers' : β → Frame → Prop}
    {errors errors' : Frame → Prop} {x : Step α} {k : α → Step β}
    (h : Harmless sure answers errors (x s))
    (hk : ∀ a s', answers a s' → Harmless sure answers' errors' (k a s'))
    (he : ∀ s', errors s' → errors' s') : Harmless sure answers' errors' ((x >>= k) s) := by
  rw [run_bind]
  revert h
  cases x s with
  | ok a s' => exact hk a s'
  | error e s' => exact fun h => ⟨he s' h.1, h.2⟩

theorem Step.exec_seq (x : Exec α) (k : α → Exec β) :
    exec (x >>= k) = exec x >>= fun a => exec (k a) := by
  funext s
  rw [run_bind]
  unfold exec
  rw [Exec.run_bind]
  cases x s.engine <;> rfl

theorem Build.Safe.run {x : Build α} {post : α → Prop} (h : Safe sure rules scope x post)
    (hctx : ctx.WellFormed scope) :
    Harmless sure (fun a ctx' => ctx'.WellFormed scope ∧ post a) (Context.WellFormed scope)
      (x rules ctx) := by
  obtain ⟨hstocks, r, hr, hpost, hfails⟩ := h
  have hpool := hstocks ctx
  obtain ⟨pool, hrun⟩ := hr ctx
  rw [hrun] at hpool ⊢
  have hleft : ({ ctx with pool } : Context).WellFormed scope := by
    refine ⟨hctx.scope_eq, hctx.bounded, fun f hf => ?_⟩
    cases r with
    | ok a => exact (hpool f hf).elim (hctx.pool f) id
    | error e => exact (hpool f hf).elim (hctx.pool f) id
  cases r with
  | ok a => exact ⟨hleft, hpost a rfl⟩
  | error e => exact ⟨hleft, hfails e rfl⟩

theorem Build.newVariable_harmless (hctx : ctx.WellFormed scope) (width : Nat)
    (nickname : Option String) (value : Nat) :
    Harmless sure (fun f ctx' => ∃ later : Scope, later.Extends scope ∧ ctx'.WellFormed later ∧
        f.WellFormed later) (Context.WellFormed scope)
      (newVariable width nickname value rules ctx) := by
  rw [newVariable_eq]
  split
  · next hw =>
    have hextends := ctx.addVariable_extends width nickname value
    have hvar : (Formula.var ctx.vars.size width).WellFormed
        (ctx.addVariable width nickname value).scope :=
      Formula.WellFormed.stable.var hw (ctx.addVariable_scope width nickname value)
    have hsafe : Safe sure rules _ _ _ := .intern hvar
    rw [hctx.scope_eq] at hextends
    have hend := hsafe.run (hctx.addVariable hw nickname value)
    exact ⟨_, hextends, hend.1, hend.2⟩
  · exact ⟨hctx, fun _ => rfl⟩

/-! Contexts in use. -/

section

open Context Build

variable {given : List Formula}

/-- A request leaves a context of well-formed formulas, whether or not it is answered. -/
theorem Request.run_wellFormed {request : Request} (rules : Rules) (hctx : ctx.WellFormed ctx.scope)
    (hgiven : ∀ f ∈ given, f.WellFormed ctx.scope) (permitted : request.Permitted given) :
    ∃ scope, (Build.after (request.run rules ctx)).WellFormed scope := by
  have left : ∀ {r : EStateM.Result Error Context Formula},
      Harmless False (fun _ ctx' => ∃ scope, ctx'.WellFormed scope)
        (fun ctx' => ∃ scope, ctx'.WellFormed scope) r →
      ∃ scope, (Build.after r).WellFormed scope := by
    intro r hr
    cases r with
    | ok f ctx' => exact hr
    | error e ctx' => exact hr.1
  -- but for a new variable, all that is entered is well formed in the scope as it was
  have fixed : ∀ {x : Build Formula} {post : Formula → Prop},
      Safe False rules ctx.scope x post →
      ∃ scope, (Build.after (x rules ctx)).WellFormed scope :=
    fun hx => left ((hx.run hctx).mono (fun _ _ h => ⟨_, h.1⟩) fun _ h => ⟨_, h⟩)
  cases request with
  | constant value width => exact fixed (.constant False.elim)
  | newVariable width nickname value =>
    refine left ((newVariable_harmless hctx width nickname value).mono (fun _ _ h => ?_)
      fun _ h => ⟨_, h⟩)
    obtain ⟨later, -, hlater, -⟩ := h
    exact ⟨later, hlater⟩
  | variableFormula id =>
    rw [Request.run, variableFormula_eq]
    unfold findVariable
    cases hentry : ctx.vars[id]? with
    | none => exact ⟨_, hctx⟩
    | some entry =>
      have hvar : (Formula.var id entry.width).WellFormed ctx.scope :=
        ⟨(hctx.bounded id entry hentry).1, scope_eq_some.2 ⟨entry, hentry, rfl⟩⟩
      exact fixed (.intern hvar)
  | memoryArray width => exact fixed (.intern permitted)
  | call call => exact fixed (call.safe fun g hg => hgiven g (permitted g hg))
  | simplify g =>
    have hk := Formula.WellFormed.hereditary ctx.scope
    obtain ⟨r, hr, hpost, -⟩ := Formula.simplify_keeps hk rules (hgiven g permitted)
    refine fixed ⟨fun ctx => ?_, r, hr, hpost, fun _ _ => False.elim⟩
    exact (Formula.simplify_gives (keeping_laws hk) (hgiven g permitted) trivial ctx rfl).2.1

theorem Session.pool_wellFormed (h : Session ctx given) :
    ∀ f, ctx.pool.Has f → f.WellFormed ctx.scope := by
  induction h with
  | start =>
    rintro f ⟨i, hi⟩
    simp at hi
  | answered request rules before permitted answer ih
  | refused request rules before permitted answer ih =>
    obtain ⟨scope, hnext⟩ := request.run_wellFormed rules ⟨rfl, before.wellFormed.1, ih⟩
      before.wellFormed.2 permitted
    rw [answer] at hnext
    exact hnext.scope_eq ▸ hnext.pool
  | opened _ _ _ ih => exact ih
  | assigned id value before answer ih =>
    rw [(setVariableValue_bounded before.wellFormed.1 answer).2, pool_updateVariable answer]
    exact ih
  | commented id comment before answer ih =>
    rw [(setVariableComment_bounded before.wellFormed.1 answer).2, pool_updateVariable answer]
    exact ih

end

/-! What is relied on. -/

/-- What is known of an instruction: the architecture, what may stand as its operands,
and if `sure` that these are sized. -/
structure Premises where
  arch : Architecture
  sure : Prop
  takes : List Operand → Prop
  sized : sure → ∀ ops, takes ops → ∀ op ∈ ops, op.Sized arch

namespace Premises

def unsure (arch : Architecture) : Premises where
  arch := arch
  sure := False
  takes _ := True
  sized h := h.elim

def pinned (P : Premises) (ops : List Operand) : Premises where
  arch := P.arch
  sure := P.sure
  takes l := l = ops ∧ P.takes l
  sized hs l hl := P.sized hs l hl.2

/-- The engine is well formed, and the operands are such as may stand there. -/
structure Holds (P : Premises) (scope : Scope) (s : Frame) : Prop where
  engine : s.engine.WellFormed P.arch scope
  operands : P.takes s.instruction.operands

/-- `Holds` in a scope that has grown. -/
def Later (P : Premises) (scope : Scope) (s : Frame) : Prop :=
  ∃ later : Scope, later.Extends scope ∧ P.Holds later s

/-- The part makes no variable, keeps what is relied on, and its answer is so. -/
def Safe {α : Type} (P : Premises) (scope : Scope) (x : Step α) (post : α → Prop) : Prop :=
  ∀ s, P.Holds scope s →
    Harmless P.sure (fun a s' => P.Holds scope s' ∧ post a) (P.Holds scope) (x s)

abbrev Passes {α : Type} (P : Premises) (scope : Scope) (x : Step α) : Prop :=
  P.Safe scope x fun _ => True

/-- The part keeps what is relied on. -/
def Ends {α : Type} (P : Premises) (scope : Scope) (x : Step α) : Prop :=
  ∀ s, P.Holds scope s → Harmless P.sure (fun _ => P.Later scope) (P.Later scope) (x s)

variable {P : Premises} {scope : Scope} {α β : Type}

theorem Holds.later (h : P.Holds scope s) : P.Later scope s := ⟨scope, .refl _, h⟩

theorem Later.trans {later : Scope} (h : P.Later later s) (hle : later.Extends scope) :
    P.Later scope s := by
  obtain ⟨last, hlast, hs⟩ := h
  exact ⟨last, hle.trans hlast, hs⟩

theorem Holds.of_engine (h : P.Holds scope s) {e : Engine} (harch : e.arch = s.arch)
    (hcontext : e.context = s.context) (hsymbolic : e.symbolic = s.symbolic) :
    P.Holds scope { s with engine := e } where
  engine := ⟨harch.trans h.engine.arch_eq, hcontext ▸ h.engine.context,
    hsymbolic ▸ h.engine.symbolic⟩
  operands := h.operands

theorem Holds.of_symbolic (h : P.Holds scope s) {symbolic : Symbolic}
    (hs : symbolic.WellFormed scope) : P.Holds scope { s with symbolic := symbolic } :=
  ⟨⟨h.engine.arch_eq, h.engine.context, hs⟩, h.operands⟩

theorem Holds.of_instruction (h : P.Holds scope s) {inst : Instruction}
    (hops : inst.operands = s.instruction.operands) :
    P.Holds scope { s with instruction := inst } :=
  ⟨h.engine, (congrArg P.takes hops).mpr h.operands⟩

namespace Safe

variable {x : Step α} {k : α → Step β} {post : α → Prop} {post' : β → Prop} {r : Except Error α}
  {g : Frame → α}

/-! The rules. -/

theorem pure {a : α} (h : post a) : P.Safe scope (pure a) post := fun _ hs => ⟨hs, h⟩

section

variable (hx : P.Safe scope x post)

include hx

theorem mono {weaker : α → Prop} (h : ∀ a, post a → weaker a) : P.Safe scope x weaker :=
  fun s hs => (hx s hs).mono (fun a _ ha => ⟨ha.1, h a ha.2⟩) fun _ he => he

theorem done : P.Passes scope x := hx.mono fun _ _ => trivial

theorem bind (hk : ∀ a, post a → P.Safe scope (k a) post') : P.Safe scope (x >>= k) post' :=
  fun s hs => (hx s hs).bind (fun a s' ha => hk a ha.2 s' ha.1) fun _ he => he

theorem seq {y : Step β} (hy : P.Safe scope y post') :
    P.Safe scope (x >>= fun _ => y) post' := hx.bind fun _ _ => hy

theorem map {f : α → β} (h : ∀ a, post a → post' (f a)) : P.Safe scope (f <$> x) post' := by
  exact hx.bind fun a ha => .pure (h a ha)

end

theorem ite {c : Prop} [Decidable c] {y : Step α} (hx : c → P.Safe scope x post)
    (hy : ¬ c → P.Safe scope y post) : P.Safe scope (if c then x else y) post :=
  iteInduction (motive := (P.Safe scope · post)) hx hy

theorem throw {e : Error} (h : P.sure → e.isFatal = false) :
    P.Safe scope (throw e : Step α) post := fun _ hs => ⟨hs, h⟩

theorem composes : Composes fun {α : Type} (x : Step α) post => P.Safe scope x post :=
  ⟨.pure, .bind⟩

theorem forM {ι : Type} {f : ι → Step PUnit} (l : List ι)
    (h : ∀ i ∈ l, P.Passes scope (f i)) : P.Passes scope (l.forM f) := by
  induction l with
  | nil => exact .pure trivial
  | cons i l ih => exact (h i (by simp)).seq (ih fun j hj => h j (by simp [hj]))

theorem look (h : ∀ s, P.Holds scope s → post (g s)) :
    P.Safe scope (fun s => .ok (g s) s) post := fun s hs => ⟨hs, h s hs⟩

theorem get {k : Frame → Step α} (h : ∀ s, P.Holds scope s → P.Safe scope (k s) post) :
    P.Safe scope (get >>= k) post := fun s hs => h s hs s hs

theorem getEngine {k : Engine → Exec α}
    (h : ∀ e : Engine, e.WellFormed P.arch scope → P.Safe scope (exec (k e)) post) :
    P.Safe scope (exec (MonadState.get >>= k)) post := fun s hs => h s.engine hs.engine s hs

theorem build {b : Build α} (h : ∀ rules, Build.Safe P.sure rules scope b post) :
    P.Safe scope (exec (Exec.build b)) post := by
  intro s hs
  have hend := (h s.modes.rules).run hs.engine.context
  unfold exec Exec.build
  revert hend
  cases b s.modes.rules s.context with
  | ok a ctx =>
    exact fun hend => ⟨⟨⟨hs.engine.arch_eq, hend.1, hs.engine.symbolic⟩, hs.operands⟩, hend.2⟩
  | error e ctx =>
    exact fun hend => ⟨⟨⟨hs.engine.arch_eq, hend.1, hs.engine.symbolic⟩, hs.operands⟩, hend.2⟩

/-- A part that changes the engine beside its formulas. -/
theorem change {e : Frame → Engine} (hx : ∀ s, x s = .ok (g s) { s with engine := e s })
    (h : ∀ s, (e s).arch = s.arch ∧ (e s).context = s.context ∧
      (e s).symbolic = s.symbolic) : P.Passes scope x := by
  intro s hs
  rw [hx]
  obtain ⟨harch, hcontext, hsymbolic⟩ := h s
  exact ⟨hs.of_engine harch hcontext hsymbolic, trivial⟩

theorem ofExcept (h : ∀ a, r = .ok a → post a) (he : ∀ e, r = .error e → e.isFatal = false) :
    P.Safe scope (ofExcept r) post := by
  cases r with
  | ok a => exact .pure (h a rfl)
  | error e => exact .throw fun _ => he e rfl

theorem lookUp (he : ∀ e, r = .error e → e.isFatal = false) :
    P.Safe scope (exec (MonadExcept.ofExcept r)) (r = .ok ·) := by
  cases r with
  | ok a => exact .pure rfl
  | error e => exact .throw fun _ => he e rfl

theorem modifySymbolic {change : Symbolic → Except Error Symbolic}
    (hok : ∀ s s', s.WellFormed scope → change s = .ok s' → s'.WellFormed scope)
    (he : ∀ s e, change s = .error e → e.isFatal = false) :
    P.Passes scope (exec (modifySymbolic change)) := by
  intro s hs
  rw [run_modifySymbolic]
  cases hrun : change s.symbolic with
  | ok symbolic => exact ⟨hs.of_symbolic (hok _ _ hs.engine.symbolic hrun), trivial⟩
  | error e => exact ⟨hs, fun _ => he _ _ hrun⟩

/-! Looking at the frame. -/

theorem arch : P.Safe scope Step.arch (· = P.arch) := look fun _ hs => hs.engine.arch_eq

theorem instruction : P.Passes scope instruction := look fun _ _ => trivial

theorem isOn (mode : Mode) : P.Passes scope (Step.isOn mode) := look fun _ _ => trivial

theorem fallThrough : P.Passes scope fallThrough := look fun _ _ => trivial

theorem evaluate (f : Formula) : P.Passes scope (evaluate f) := look fun _ _ => trivial

theorem operandCount : P.Passes scope operandCount := look fun _ _ => trivial

theorem refuse {fault : OperandFault} (h : P.sure → fault ≠ .overflow) :
    P.Safe scope (refuse fault : Step α) post := by
  refine instruction.bind fun inst _ => .throw fun hs => ?_
  have hne := h hs
  cases fault with
  | overflow => exact absurd rfl hne
  | _ => rfl

theorem operand (i : Nat) : P.Safe scope (operand i) fun op => P.sure → op.Worded := by
  have hlook : P.Safe scope (operand? i) fun op =>
      ∀ found, op = some found → P.sure → found.Worded := by
    refine look fun s hs found hfound hsure => ?_
    exact (P.sized hsure _ hs.operands found (List.mem_of_getElem? hfound)).worded
  refine hlook.bind fun op hop => ?_
  cases op with
  | none => exact refuse fun _ => by decide
  | some found => exact .pure (hop found rfl)

theorem register (id : Nat) : P.Safe scope (register id) P.arch.Has := by
  refine arch.bind fun found harch => ?_
  subst harch
  exact .ofExcept (fun _ => Architecture.has_of_register) fun _ => Architecture.register_error

/-! Taint. -/

theorem isTainted (op : Operand) : P.Passes scope (Step.isTainted op) := look fun _ _ => trivial

theorem setTaint (dst : Operand) (tainted : Bool) : P.Passes scope (Step.setTaint dst tainted) :=
  change (fun _ => rfl) fun _ => ⟨rfl, rfl, rfl⟩

/-! Reading. -/

theorem readRegister (hw : P.sure → WordWidth reg.bits) :
    P.Safe scope (readRegister reg) (Formula.WellFormed scope) := by
  intro s hs
  rw [run_readRegister]
  refine build (fun rules => ?_) s hs
  exact .ite (fun _ => .word hw) fun _ => .ite (fun _ => .word hw) fun _ =>
    hs.engine.symbolic.registerFormula _ hw

theorem addressPart (hw : P.sure → WordWidth reg.bits) :
    P.Safe scope (addressPart reg) (Formula.WellFormed scope) :=
  (readRegister hw).bind fun _ hf => arch.bind fun _ _ => build fun _ => .resize hf _

/-- The displacement has the width of an address, whatever it is. -/
theorem effectiveAddress (h : P.sure → (memory access).Worded) :
    P.Safe scope (effectiveAddress access) (Formula.WellFormed scope) := by
  have hwidth := P.arch.addressWidth_range
  have hword : ∀ n, P.Safe scope (exec (Exec.build (Build.constant n P.arch.addressWidth)))
      (Formula.WellFormed scope) := fun _ => build fun _ => .word fun _ => hwidth
  exact effectiveAddress_composes composes (fun _ => Formula.WellFormed scope) (fun _ => 0) rfl arch
    (fun _ => hword _) (fun _ => hword _)
    (fun hreg => addressPart fun hs => (hreg.elim ((h hs).2.1 _) ((h hs).2.2 _)).wordWidth)
    (fun hf hg => build fun _ => .arith hf .add hg) (fun hf hg => build fun _ => .arith hf .mul hg)

theorem arrayIndex (h : P.sure → (memory access).Worded) (symbolic : Mode) :
    P.Safe scope (arrayIndex access symbolic) (Formula.WellFormed scope) := by
  refine (isOn symbolic).bind fun on _ => .ite (fun _ => effectiveAddress h) fun _ => ?_
  refine arch.bind fun found harch => ?_
  subst harch
  exact build fun _ => .word fun _ => P.arch.addressWidth_range

theorem keepArray (hf : f.WellFormed scope) : P.Passes scope (exec
    (modify fun e => { e with symbolic := { e.symbolic with array := some f } })) := by
  refine fun s hs => ⟨hs.of_symbolic ⟨hs.engine.symbolic.expressions, fun g hg => ?_⟩, trivial⟩
  cases hg
  exact hf

theorem memoryArray : P.Safe scope (exec memoryArray) (Formula.WellFormed scope) := by
  refine getEngine fun e he => ?_
  cases harray : e.symbolic.array with
  | some array => exact .pure (he.symbolic.array array harray)
  | none =>
    have hmemory : (Formula.memory e.arch.addressWidth).WellFormed scope :=
      e.arch.addressWidth_range
    simp only [exec_seq]
    refine (build fun _ => .intern hmemory).bind fun f hf => ?_
    exact (keepArray hf).bind fun _ _ => .pure hf

theorem arrayLoad (hi : index.WellFormed scope) (bytes : Nat) :
    P.Safe scope (exec (arrayLoad index bytes)) fun f =>
      f.WellFormed scope ∧ 1 ≤ bytes := by
  rw [arrayLoad_eq, exec_seq]
  exact memoryArray.bind fun array harray => build fun _ => .loadBytes hi bytes harray

theorem arrayStore {value : Formula} (hi : index.WellFormed scope) (hv : value.WellFormed scope) :
    P.Passes scope (exec (arrayStore index value)) := by
  simp only [arrayStore_eq, exec_seq]
  refine memoryArray.bind fun array harray => ?_
  exact (build fun _ => .storeBytes hi hv _ harray).bind fun array harray => keepArray harray

theorem load (h : P.sure → (memory access).Worded) :
    P.Safe scope (load access) fun f => f.WellFormed scope ∧ 1 ≤ access.bytes := by
  have hmemory : P.Safe scope (exec (memoryFormula access)) fun f =>
      f.WellFormed scope ∧ 1 ≤ access.bytes :=
    getEngine fun e he => build fun _ => he.symbolic.memoryFormula _ _ _
  refine (isOn .memoryArray).bind fun on _ => .ite (fun _ => ?_) fun _ => hmemory
  exact (arrayIndex h .symbolizeLoad).bind fun index hindex => arrayLoad hindex _

/-! Writing. -/

theorem create (hf : f.WellFormed scope) (origin : Origin) (comment : String)
    (address : Option Address) : P.Passes scope (exec (create f origin comment address)) := by
  intro s hs
  unfold exec
  rw [Engine.run_create]
  cases hcheck : checkOrigin f origin with
  | ok _ =>
    refine ⟨⟨⟨hs.engine.arch_eq, hs.engine.context, ?_⟩, hs.operands⟩, trivial⟩
    exact hs.engine.symbolic.assign hf origin _
  | error e => exact ⟨hs, fun _ => checkOrigin_error hcheck⟩

theorem updateExpression (id : Nat) {change : Expression → Expression}
    (h : ∀ x, (change x).formula = x.formula) :
    P.Passes scope (exec (Engine.modifySymbolic fun s => s.update id change)) :=
  modifySymbolic (fun _ _ hs hrun => hs.update h hrun) fun _ _ => update_error

/-- A change of the instruction beside its operands. -/
theorem modifyInstruction {change : Frame → Frame} (h : ∀ s, (change s).engine = s.engine ∧
      (change s).instruction.operands = s.instruction.operands) :
    P.Passes scope (modify change) := by
  refine fun s hs => ⟨⟨(h s).1 ▸ hs.engine, ?_⟩, trivial⟩
  rw [(h s).2]
  exact hs.operands

theorem modifyMachine (change : Frame → Machine) :
    P.Passes scope (modify fun s => { s with machine := change s }) :=
  fun _ hs => ⟨hs.of_engine rfl rfl rfl, trivial⟩

theorem record (id : Nat) : P.Passes scope (record id) := by
  refine instruction.bind fun inst _ => ?_
  have hlist : P.Passes scope (modify fun frame => { frame with
      instruction.expressions := frame.instruction.expressions.push id }) :=
    modifyInstruction fun _ => ⟨rfl, rfl⟩
  have hnote : P.Passes scope (exec (Engine.modifySymbolic fun s =>
      s.setDisassembly id inst.disassembly)) := updateExpression id fun _ => rfl
  exact .ite (fun _ => hnote.seq hlist) fun _ => hlist

theorem writeRoot (root : Register) (hf : f.WellFormed scope) (comment : String) :
    P.Passes scope (writeRoot root f comment) :=
  instruction.bind fun _ _ => (create hf _ _ _).bind fun id _ => (evaluate f).bind fun _ _ =>
    (modifyMachine _).seq ((record id).seq (.pure trivial))

theorem writeMemory (h : P.sure → (memory access).Worded) (hf : f.WellFormed scope)
    (comment : String) : P.Passes scope (writeMemory access f comment) := by
  refine .ite (fun _ => refuse fun _ => by decide) fun _ => instruction.bind fun _ _ => ?_
  refine (create hf _ _ _).bind fun id _ => (evaluate f).bind fun _ _ => ?_
  refine (modifyMachine _).seq ((isOn .memoryArray).bind fun _ _ => ?_)
  have hrest : P.Passes scope (Step.record id >>= fun _ => Pure.pure id) :=
    (record id).seq (.pure trivial)
  refine .ite (fun _ => ?_) fun _ => hrest
  exact (arrayIndex h .symbolizeStore).bind fun index hindex => (arrayStore hindex hf).seq hrest

theorem mergeRegister (reg : Register) (hf : f.WellFormed scope) :
    P.Safe scope (exec (mergeRegister reg f)) (Formula.WellFormed scope) :=
  getEngine fun _ he => build fun _ => he.symbolic.mergeRegister _ _ _ hf

theorem write (h : P.sure → dst.Worded) (hf : f.WellFormed scope) (comment : String) :
    P.Passes scope (write dst f comment) := by
  cases dst with
  | immediate imm => exact refuse fun _ => by decide
  | register reg =>
    refine arch.bind fun found _ => .ite (fun _ => .pure trivial) fun _ => ?_
    refine (mergeRegister reg hf).bind fun merged hmerged => ?_
    refine (register reg.parent).bind fun root _ => ?_
    exact (writeRoot root hmerged comment).map fun _ _ => trivial
  | memory access => exact (writeMemory h hf comment).map fun _ _ => trivial

theorem stamp (expression : Option Nat) (tainted : Bool) :
    P.Passes scope (stamp expression tainted) := by
  cases expression with
  | none => exact .pure trivial
  | some id => exact updateExpression id fun _ => rfl

theorem assign (h : P.sure → dst.Worded) (hf : f.WellFormed scope) (comment : String)
    {taint : Step Bool} (ht : P.Passes scope taint) : P.Passes scope (assign dst f comment taint) :=
  (write h hf comment).bind fun _ _ => ht.bind fun _ _ => (stamp _ _).seq (.pure trivial)

theorem exchange {src : Operand} (hdst : P.sure → dst.Worded) (hsrc : P.sure → src.Worded)
    {f g : Formula} (hf : f.WellFormed scope) (hg : g.WellFormed scope) (comment : String)
    (b c : Bool) : P.Passes scope (exchange dst src f g comment b c) :=
  (write hdst hf comment).bind fun _ _ => (write hsrc hg comment).bind fun _ _ =>
    (setTaint dst b).bind fun _ _ => (setTaint src c).bind fun _ _ =>
    (stamp _ _).seq (stamp _ _)

theorem volatile (hf : f.WellFormed scope) (comment : String) (tainted : Bool) :
    P.Passes scope (volatile f comment tainted) :=
  instruction.bind fun _ _ => (create hf _ _ _).bind fun id _ =>
    (record id).seq (stamp (some id) tainted)

/-! Control flow. -/

theorem setNext (branch taken : Bool) (next : Address) :
    P.Passes scope (setNext branch taken next) :=
  modifyInstruction fun _ => ⟨rfl, rfl⟩

theorem pushConstraint {pc : Formula} (h : pc.WellFormed scope) (source target : Address) :
    P.Passes scope (exec (pushConstraint pc source target)) := by
  unfold Engine.pushConstraint
  rw [exec_seq]
  have hon : P.Passes scope (exec (Engine.isOn .pcTrackingSymbolic)) := look fun _ _ => trivial
  refine hon.bind fun on _ => ?_
  split
  · exact .pure trivial
  · rw [exec_seq]
    refine (build fun _ => outcomes_safe h source target).bind fun branches _ => ?_
    exact fun s hs => ⟨hs.of_symbolic ⟨hs.engine.symbolic.expressions, hs.engine.symbolic.array⟩,
      trivial⟩

theorem arrive {target : Formula} (h : target.WellFormed scope) (conditional : Bool) :
    P.Passes scope (arrive target conditional) :=
  (evaluate target).bind fun _ _ => fallThrough.bind fun _ _ => (setNext _ _ _).bind fun _ _ =>
    instruction.bind fun _ _ => pushConstraint h _ _

end Safe

/-! Parts that may make variables. -/

theorem Safe.ends {x : Step α} {post : α → Prop} (h : P.Safe scope x post) : P.Ends scope x :=
  fun s hs => (h s hs).mono (fun _ _ ha => ha.1.later) fun _ => Holds.later

theorem Safe.first {x : Step α} {k : α → Step β} {post : α → Prop} (h : P.Safe scope x post)
    (hk : ∀ a, post a → P.Ends scope (k a)) : P.Ends scope (x >>= k) :=
  fun s hs => (h s hs).bind (fun a s' ha => hk a ha.2 s' ha.1) fun _ => Holds.later

theorem Holds.newVariable (hs : P.Holds scope s) (width : Nat) (nickname : Option String)
    (value : Nat) :
    Harmless P.sure (fun f s' => ∃ later : Scope, later.Extends scope ∧ P.Holds later s' ∧
        f.WellFormed later) (P.Holds scope)
      (exec (Exec.build (Build.newVariable width nickname value)) s) := by
  have hend : Harmless P.sure _ _
      (Build.newVariable width nickname value s.modes.rules s.context) :=
    Build.newVariable_harmless hs.engine.context width nickname value
  unfold exec Exec.build
  revert hend
  cases Build.newVariable width nickname value s.modes.rules s.context with
  | ok f ctx =>
    rintro ⟨later, hle, hctx, hf⟩
    exact ⟨later, hle, ⟨⟨hs.engine.arch_eq, hctx, hs.engine.symbolic.mono hle⟩, hs.operands⟩, hf⟩
  | error e ctx =>
    exact fun hend => ⟨⟨⟨hs.engine.arch_eq, hend.1, hs.engine.symbolic⟩, hs.operands⟩, hend.2⟩

namespace Ends

theorem pure (a : α) : P.Ends scope (pure a : Step α) := fun _ hs => hs.later

theorem newVariable {k : Formula → Step β} (width : Nat) (nickname : Option String) (value : Nat)
    (hk : ∀ later : Scope, later.Extends scope → ∀ f, f.WellFormed later → P.Ends later (k f)) :
    P.Ends scope (exec (Exec.build (Build.newVariable width nickname value)) >>= k) := by
  refine fun s hs => (hs.newVariable width nickname value).bind (fun f s' h => ?_) fun _ => Holds.later
  obtain ⟨later, hle, hs', hf⟩ := h
  exact (hk later hle f hf s' hs').mono (fun _ _ hend => hend.trans hle) fun _ hend =>
    hend.trans hle

end Ends

/-! A run in lockstep with itself. -/

/-- Two runs that are the same one, in which what is relied on is kept. -/
def alone (P : Premises) (start : Scope) : Simulation where
  arch := P.arch
  World := Scope
  le w w' := w'.Extends w
  frames w s t := s = t ∧ w.Extends start ∧ P.Holds w s
  final s t := s = t ∧ P.Later start s
  failed e s t := s = t ∧ P.Later start s ∧ (P.sure → e.isFatal = false)
  sure := P.sure
  source op := P.sure → op.Worded
  legible _ op := ∀ access, op = .memory access → P.sure → op.Worded
  target op := P.sure → op.Worded
  level _ _ := false
  knows w _ f g := f = g ∧ f.WellFormed w
  taint _ b b' := b = b'
  whole _ _ := True

section

open Simulation

variable {start : Scope} {w : Scope} {x : Step α} {post : α → α → Prop}

/-- What one run does, two equal ones do. -/
theorem outcomes {answers : α → Frame → Prop} {errors : Frame → Prop}
    {r : EStateM.Result Error Frame α} (h : Harmless P.sure answers errors r) :
    Step.Outcomes (fun e s t => s = t ∧ errors s ∧ (P.sure → e.isFatal = false))
      (fun a b s t => a = b ∧ s = t ∧ answers a s) r r := by
  cases r with
  | ok a s => exact ⟨rfl, rfl, h⟩
  | error e s => exact ⟨rfl, rfl, h⟩

theorem Safe.reads (h : P.Safe w x fun a => post a a) : (P.alone start).Reads w x x post := by
  rintro s t ⟨rfl, hle, hs⟩
  refine (outcomes (h s hs)).mono (fun e s' t' he => ?_) fun a b s' t' ha => ?_
  · obtain ⟨rfl, hs', hfatal⟩ := he
    exact ⟨rfl, ⟨w, hle, hs'⟩, hfatal⟩
  · obtain ⟨rfl, rfl, hs', hpost⟩ := ha
    exact ⟨⟨rfl, hle, hs'⟩, hpost⟩

theorem words : (P.alone start).Words where
  refl w := .refl _
  trans h₁ h₂ := h₁.trans h₂
  knows_mono hle hf := ⟨hf.1, hf.2.mono hle⟩
  raise _ hf := hf
  width_eq hf := by rw [hf.1]
  width_range hf _ := hf.2.width_range
  constant value width hw := Safe.reads <| Safe.build fun _ => (Build.Safe.constant hw).mono
    fun f hf => ⟨⟨rfl, hf.1⟩, hf.2, hf.2 ▸ hf.1.width_range.1⟩
  call {w l c c'} hc := by
    obtain ⟨rfl, hformed⟩ := hc.diagonal
    exact Safe.reads <| Safe.build fun _ => (Call.safe c hformed.children).mono
      fun f hf => ⟨⟨rfl, hf.1⟩, hf.2.1, fun _ => hf.2.2⟩
  cancel {w l f g} hf := by
    obtain ⟨rfl, hf⟩ := hf
    exact Safe.reads <| Safe.build fun _ => (Build.Safe.arith hf .xor hf).mono fun r hr => ⟨rfl, hr⟩
  failed h he := ⟨h.1, ⟨_, h.2⟩, he⟩

theorem Safe.writes (h : P.Safe w x fun a => post a a) :
    (P.alone start).Writes w x x fun _ => post := Reads.writes words h.reads fun _ _ hpost => hpost

theorem Safe.completes {post : α → Prop} (h : P.Safe w x post) : (P.alone start).Ends w x x := by
  rintro s t ⟨rfl, hle, hs⟩
  refine (outcomes (h s hs)).mono (fun e s' t' he => ?_) fun a b s' t' ha => ?_
  · exact ⟨he.1, ⟨w, hle, he.2.1⟩, he.2.2⟩
  · exact ⟨⟨ha.2.1, w, hle, ha.2.2.1⟩, ha.1⟩

variable (hpin : ∀ {l l'}, P.takes l → P.takes l' → l = l')

include hpin

theorem reading : (P.alone start).Reading where
  toWords := words
  code := by
    rintro w s t ⟨rfl, -, hs⟩
    exact ⟨hs.engine.arch_eq, hs.engine.arch_eq, rfl, rfl, rfl, rfl,
      fun op hop hsure => (P.sized hsure _ hs.operands op hop).worded⟩
  operands h h' := hpin h.2.2.operands h'.2.2.operands
  final h := ⟨h.1, _, h.2⟩
  source_range h hs := (h hs).1
  source_register h _ := ⟨h.wordWidth, _, h⟩
  source_base h hreg hs := ⟨((h hs).2.1 _ hreg).wordWidth, (h hs).2.1 _ hreg⟩
  source_index h hreg hs := ⟨((h hs).2.2 _ hreg).wordWidth, (h hs).2.2 _ hreg⟩
  legible_register _ h := by cases h
  target_root h _ _ _ := ⟨h.wordWidth, _, h⟩
  evaluate h hf := by rw [h.1, hf.1]
  registerFormula hreg _ := Safe.reads <| Safe.getEngine fun e he => Safe.build fun _ =>
    (he.symbolic.registerFormula e.machine fun hs => (hreg hs).1).mono fun f hf => ⟨rfl, hf⟩
  load {w access} h := Safe.reads <| (Safe.load (h access rfl)).mono
    fun f hf => ⟨⟨rfl, hf.1⟩, fun _ => hf.2⟩

theorem diagonal : (P.alone start).Diagonal where
  toReading := reading hpin
  same h := h.1
  equal h := h.1
  lower h := h
  level _ _ := rfl
  taint := Iff.rfl
  legible h _ _ := h
  slot address bits hw hs := by
    refine ⟨hw hs, fun reg hreg => ?_, nofun⟩
    exact Option.some.inj hreg ▸ ⟨_, P.arch.stackPointer_has⟩
  set comment b hdst hf := ((Safe.assign hdst hf.2 comment (Safe.setTaint _ b)).mono
    fun _ _ => rfl).writes
  keep comment hdst _ hf := ((Safe.assign hdst hf.2 comment (Safe.isTainted _)).mono
    fun _ _ => rfl).writes
  exchange comment b c hdst hsrc hf hg := (Safe.exchange hdst hsrc hf.2 hg.2 comment b c).writes
  volatile comment b hf := (Safe.volatile hf.2 comment b).writes
  unknownValue {w reg} _ := by
    rintro s t ⟨rfl, hle, hs⟩
    refine (outcomes (hs.newVariable reg.bits _ (s.machine.register reg))).mono
      (fun e s' t' he => ⟨he.1, ⟨w, hle, he.2.1⟩, he.2.2⟩) fun f g s' t' h => ?_
    obtain ⟨rfl, rfl, later, hlater, hs', hf⟩ := h
    exact ⟨later, hlater, ⟨rfl, hle.trans hlater, hs'⟩, rfl, hf⟩
  advanceTo next := (Safe.setNext _ _ next).completes
  arrive conditional hf _ := (Safe.arrive hf.2 conditional).completes

end

/-- Every operation ends so, in the scope in which it starts or in a larger one. -/
theorem action {opcode : Nat} {action : Step (Option Fault)}
    (hact : P.arch.semantics? opcode = some action)
    (h : P.sure → ∀ ops, ((P.pinned ops).alone scope).Fits scope opcode) : P.Ends scope action := by
  intro s hs
  have hs' : (P.pinned s.instruction.operands).Holds scope s := ⟨hs.engine, rfl, hs.operands⟩
  have hpin : ∀ {l l'}, (P.pinned s.instruction.operands).takes l →
      (P.pinned s.instruction.operands).takes l' → l = l' := fun h h' => h.1.trans h'.1.symm
  have hend := (diagonal hpin).action (w := scope) (fun hsure => h hsure _)
    ((diagonal hpin).opens id (fun _ => trivial) opcode) hact s s ⟨rfl, .refl _, hs'⟩
  have hlater : ∀ s', (P.pinned s.instruction.operands).Later scope s' → P.Later scope s' := by
    rintro s' ⟨later, hle, hs'⟩
    exact ⟨later, hle, hs'.engine, hs'.operands.2⟩
  revert hend
  cases action s with
  | ok a s' => exact fun hend => hlater s' hend.1.2
  | error e s' => exact fun hend => ⟨hlater s' hend.2.2.1, hend.2.2.2⟩

end Premises

end Concolic
