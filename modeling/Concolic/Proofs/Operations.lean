import Concolic.Proofs.AlignedWrites
import Concolic.Proofs.Lockstep.Accounts
import Concolic.Proofs.PathTaken

/-
  What is so in every engine that operations lead to.

  An engine is used through operations on it and on its states, and each may answer with
  formulas that later ones take (`Operation`). Whether an operation succeeds or fails, the
  table of expressions only grows, and the representation of the symbolic state survives
  (`Operation.run_upholds`); so both hold along every sequence of operations
  (`Engine.Turns.kept`). Where no array is recorded as the value of a register or of
  memory, the formulas of registers and of 1 to 16 bytes of memory can be built in all
  of these (`state_is_grounded`).
-/

namespace Concolic

open Build Symbolic Formula Engine Architecture Exec Word

variable {α : Type} {f : Formula} {x : Build α}

/-! The path. -/

namespace Path

variable {scope : Scope} {path : List PathConstraint} (rules : Rules)
  (hpath : ∀ p ∈ path, ∀ b ∈ p.branches, b.constraint.Formed scope)

theorem start_formed (scope : Scope) : Ensures rules (flag true) (Formed scope) :=
  (Makes.constant scope False true.toNat False.elim).ensures.mono fun _ hf => hf.1.formed

theorem and_formed {g : Formula} (hf : f.Formed scope) (hg : g.Formed scope) :
    Ensures rules (and f g) (Formed scope) :=
  (Call.proper rules (.arith hf.proper hg.proper)).mono fun _ hr => hr.1.formed

include hpath

theorem conjoin_formed {start : Formula} (hstart : start.Formed scope) :
    Ensures rules (conjoin start path) (Formed scope) := by
  refine .foldlM _ (fun p hp f hf => ?_) hstart
  split
  · next b hb => exact and_formed rules hf (hpath p hp b (List.mem_of_find?_eq_some hb))
  · exact .pure hf

theorem predicate_formed : Ensures rules (predicate path) (Formed scope) :=
  (start_formed rules scope).bind fun _ hstart => conjoin_formed rules hpath hstart

theorem flipLast_formed :
    Ensures rules (flipLast path) fun r => ∀ f ∈ r.toList, f.Formed scope := by
  unfold flipLast
  cases hfound : lastMultiple? path with
  | none => exact .pure (by simp)
  | some found =>
    obtain ⟨before, last⟩ := found
    obtain ⟨after, rfl, -⟩ := LastChoice.of_lastMultiple? hfound
    refine (start_formed rules scope).bind fun start hstart => ?_
    refine (conjoin_formed rules (fun p hp => hpath p (by simp [hp])) hstart).bind fun f hf => ?_
    cases hother : last.other? with
    | none => exact .pure (by simp)
    | some b =>
      have hbranch := hpath last (by simp) b (List.mem_of_find?_eq_some hother)
      have hflip : Ensures rules (and f b.constraint >>= fun g => pure (some g))
          fun r => ∀ f ∈ r.toList, f.Formed scope :=
        (and_formed rules hf hbranch).bind fun g hg => .pure (by simpa using hg)
      exact hflip

end Path

/-! Operations. -/

/-- What can be done with an engine and its states. -/
inductive Operation where
  | act (action : Action)
  | setMachine (machine : Machine)
  | create (f : Formula) (origin : Origin) (comment : String) (address : Option Address)
  | setTainted (id : Nat) (tainted : Bool)
  | setDisassembly (id : Nat) (text : String)
  | registerFormula (reg : Register)
  | mergeRegister (reg : Register) (value : Formula)
  | memoryFormula (access : Access)
  | memoryArray
  | arrayLoad (index : Formula) (bytes : Nat)
  | arrayStore (index value : Formula)
  | pushConstraint (pc : Formula) (source target : Address)
  | clearConstraints
  | pathPredicate
  | flipLast
  /-- Looks at the expressions of the table. -/
  | expressions
  /-- Looks at the conditions of the path. -/
  | conditions

namespace Operation

/-- Does an operation, and answers with the formulas that it gives out. -/
def run : Operation → Exec (List Formula)
  | act action => fun e => .ok [] (action.apply e)
  | setMachine machine => fun e => .ok [] { e with machine }
  | create f origin comment address => do
    let _ ← Engine.create f origin comment address
    return []
  | setTainted id tainted => do
    Engine.modifySymbolic fun s => s.setTainted id tainted
    return []
  | setDisassembly id text => do
    Engine.modifySymbolic fun s => s.setDisassembly id text
    return []
  | registerFormula reg => do return [← Engine.registerFormula reg]
  | mergeRegister reg value => do return [← Engine.mergeRegister reg value]
  | memoryFormula access => do return [← Engine.memoryFormula access]
  | memoryArray => do return [← Engine.memoryArray]
  | arrayLoad index bytes => do return [← Engine.arrayLoad index bytes]
  | arrayStore index value => do
    Engine.arrayStore index value
    return []
  | pushConstraint pc source target => do
    Engine.pushConstraint pc source target
    return []
  | clearConstraints => fun e => .ok [] e.clearConstraints
  | pathPredicate => do return [← Engine.pathPredicate]
  | flipLast => do return (← Engine.flipLast).toList
  | expressions => fun e => .ok (e.symbolic.expressions.toList.map Expression.formula) e
  | conditions => fun e =>
    .ok (e.symbolic.constraints.toList.flatMap fun p => p.branches.map Branch.constraint) e

/-- The formulas that an operation takes were given out, and its registers are ones of an
architecture. If `typed` then what is recorded is a word of at most 128 bits. -/
def Permitted (typed : Prop) (given : List Formula) : Operation → Prop
  | act (.process inst) => ∀ op ∈ inst.operands, op.Known
  | create f origin _ _ => f ∈ given ∧ (typed → f.isArray = false ∧ f.width ≤ Word.limit) ∧
      ∀ reg, origin = .register reg → reg.Known
  | registerFormula reg => reg.Known
  | mergeRegister _ value => value ∈ given
  | arrayLoad index _ => index ∈ given
  | arrayStore index value => index ∈ given ∧ value ∈ given
  | pushConstraint pc _ _ => pc ∈ given
  | _ => True

end Operation

/-- The second engine has the architecture, the variables and the expressions of the
first, and its symbolic state is grounded. -/
structure Engine.Upholds (typed : Prop) (e e' : Engine) : Prop where
  arch : e'.arch = e.arch
  widens : e.context.Widens e'.context
  grows : e.symbolic.Grows e'.symbolic
  grounded : e'.Grounded typed typed

/-- The formulas that were given out on the way to the second engine obey the rules. -/
def Engine.Offers (typed : Prop) (e : Engine) (fs : List Formula) (e' : Engine) : Prop :=
  e.Upholds typed e' ∧ ∀ f ∈ fs, f.Formed e'.scope

namespace Engine

variable {typed : Prop} {e e' : Engine}

theorem Upholds.trans {e'' : Engine} (h₁ : e.Upholds typed e') (h₂ : e'.Upholds typed e'') :
    e.Upholds typed e'' :=
  ⟨h₂.arch.trans h₁.arch, h₁.widens.trans h₂.widens, h₁.grows.trans h₂.grows, h₂.grounded⟩

theorem Upholds.then (h : e.Upholds typed e') {answers : α → Engine → Prop}
    {r : EStateM.Result Error Engine α} (hr : Yields answers (e'.Upholds typed) r) :
    Yields answers (e.Upholds typed) r :=
  hr.mono (fun _ _ ha => ha) fun _ he => h.trans he

namespace Grounded

variable (h : e.Grounded typed typed)

include h

theorem upholds : e.Upholds typed e := ⟨rfl, .refl _, .refl _, h⟩

theorem withPool (pool : Pool) : e.Upholds typed (e.withPool pool) :=
  ⟨rfl, .of_vars rfl, .refl _, h⟩

theorem withArray (hf : f.IndexedBy e.scope e.arch.addressWidth) :
    e.Upholds typed (e.withArray f) :=
  ⟨rfl, .refl _, .of_expressions rfl, Symbolic.Grounded.withArray h hf⟩

theorem fewer {s : Symbolic} (hfewer : e.symbolic.Fewer s)
    (hpath : s.constraints = e.symbolic.constraints)
    (harray : s.array = e.symbolic.array ∨ s.array = none) :
    e.Upholds typed { e with symbolic := s } :=
  ⟨rfl, .refl _, .of_expressions hfewer.expressions,
    Symbolic.Grounded.fewer h hfewer hpath harray⟩

theorem concretizeBytes (places : List Address) :
    e.Upholds typed
      { e with symbolic := places.foldl concretizeByte e.symbolic } := by
  induction places generalizing e with
  | nil => exact h.upholds
  | cons place places ih =>
    have hbyte := h.fewer (e.symbolic.fewer_concretizeByte place) rfl (.inl rfl)
    exact hbyte.trans (ih hbyte.grounded)

theorem build {post : α → Prop} (hx : Ensures e.modes.rules x post) :
    Yields (fun a e' => (∃ pool, e' = e.withPool pool) ∧ post a) (e.Upholds typed) (build x e) := by
  obtain ⟨r, hr, hpost, -⟩ := hx
  obtain ⟨pool, hrun⟩ := run_build hr
  rw [hrun]
  cases r with
  | ok a => exact ⟨⟨pool, rfl⟩, hpost a rfl⟩
  | error error => exact h.withPool pool

theorem gives {parts : α → List Formula}
    (hx : Ensures e.modes.rules x fun a => ∀ f ∈ parts a, f.Formed e.scope) :
    Yields (e.Offers typed) (e.Upholds typed) ((Exec.build x >>= fun a => pure (parts a)) e) := by
  refine (h.build hx).bind fun a e' ha => ?_
  obtain ⟨⟨pool, rfl⟩, hformed⟩ := ha
  exact ⟨h.withPool pool, hformed⟩

theorem addVariable {width : Nat} (hw : WordWidth width) (nickname : Option String)
    (value : Nat) (pool : Pool) : e.Upholds typed (e.addVariable width nickname value pool) := by
  have hwidens := e.context.widens_addVariable hw nickname value pool
  exact ⟨rfl, hwidens, .refl _, Grounded.mono h hwidens.scope⟩

theorem create (hf : f.Formed e.scope) (hword : typed → f.isArray = false ∧ f.width ≤ limit)
    {origin : Origin} (hknown : ∀ reg, origin = .register reg → reg.Known) (comment : String)
    (address : Option Address) :
    Yields (fun _ e' => e.Upholds typed e' ∧ e'.context = e.context) (e.Upholds typed)
      (create f origin comment address e) := by
  rw [run_create]
  cases hcheck : checkOrigin f origin with
  | error error => exact h.upholds
  | ok _ =>
    let x : Expression :=
      { id := e.symbolic.expressions.size, formula := f, origin, comment, address }
    have hassigned := h.assign id (x := x) rfl rfl hf hword hcheck hknown e.machine
    exact ⟨⟨rfl, .refl _, grows_push (expressions_assign _ _ _ _), hassigned⟩, rfl⟩

theorem arrayStore {index value : Formula} (hindex : index.Formed e.scope)
    (hvalue : value.Formed e.scope) :
    Yields (fun _ => e.Upholds typed) (e.Upholds typed) (arrayStore index value e) := by
  obtain ⟨r, hr, hpost, -⟩ := (storeBytes_makes h.indexed hindex.proper hvalue.proper
    False.elim).ensures
  obtain ⟨pool, hrun⟩ := run_arrayStore hr
  have hpool := h.withPool pool
  rw [hrun]
  cases r with
  | ok array => exact hpool.trans (hpool.grounded.withArray (hpost array rfl))
  | error error => exact hpool.trans (hpool.grounded.withArray h.indexed)

theorem symbolizeRegister (reg : Register) :
    Yields (fun _ => e.Upholds typed) (e.Upholds typed) (symbolizeRegister reg e) := by
  have hrun : Engine.symbolizeRegister reg e =
      (Exec.build (Build.newVariable reg.bits (some reg.name) (e.machine.register reg)) >>=
        fun v => mergeRegister reg v >>= fun merged => do
          let parent ← (← get).arch.register reg.parent
          Engine.create merged (.register parent) "Register symbolization" none) e := rfl
  refine (newVariable_yields (fun pool h => h.trans (h.grounded.withPool pool)) h.upholds
    fun hw => h.addVariable hw _ _).bind fun v e₁ hv => ?_
  obtain ⟨h₁, hproper⟩ := hv
  have hmerge : Ensures e₁.modes.rules
      (e₁.symbolic.mergeRegister e₁.arch e₁.machine reg v)
      (Proper e₁.scope typed) :=
    Grounded.mergeRegister h₁.grounded (hproper.weaken fun _ => trivial) _ _
  refine Yields.bind (h₁.then (h₁.grounded.build hmerge)) fun merged e₂ hmerged => ?_
  obtain ⟨⟨pool, rfl⟩, hmerged⟩ := hmerged
  replace h₁ := h₁.trans (h₁.grounded.withPool pool)
  have hparent : (do
      let parent ← (← get).arch.register reg.parent
      Engine.create merged (.register parent) "Register symbolization" none : Exec Nat)
        (e₁.withPool pool) =
      (ofExcept (e₁.arch.register reg.parent) >>= fun parent =>
        Engine.create merged (.register parent) "Register symbolization" none : Exec Nat)
        (e₁.withPool pool) := rfl
  rw [hparent]
  cases hroot : e₁.arch.register reg.parent with
  | error error => exact h₁
  | ok parent =>
    refine (h₁.then (h₁.grounded.create hmerged.formed (fun ht => ⟨hmerged.word ht,
      (hmerged.width_range ht).2⟩) (fun root hsame => ?_) _ none)).mono
      (fun _ _ ha => h₁.trans ha.1) fun _ he => he
    obtain rfl := Origin.register.inj hsame
    exact ⟨_, has_of_register hroot⟩

theorem symbolizeMemory (access : Access) :
    Yields (fun _ => e.Upholds typed) (e.Upholds typed) (symbolizeMemory access e) := by
  refine symbolizeMemory_yields (fun pool h => h.trans (h.grounded.withPool pool)) h.upholds
    (fun hw => h.addVariable hw _ _) (fun {e' f} h₁ hf => ?_) fun {e' _ _} h₁ hindex hf => ?_
  · have hword : typed → f.isArray = false ∧ f.width ≤ limit := fun _ =>
      ⟨hf.word trivial, (hf.width_range trivial).2⟩
    exact (h₁.then (h₁.grounded.create hf.formed hword (fun _ hreg => by cases hreg) _ none)).mono
      (fun _ _ ha => ⟨h₁.trans ha.1, ha.2⟩) fun _ he => he
  · exact (h₁.grounded.arrayStore hindex hf).mono (fun _ _ ha => h₁.trans ha)
      fun _ he => h₁.trans he

theorem update (id : Nat) {change : Expression → Expression}
    (hcore : ∀ x, (change x).core = x.core) :
    Yields (fun _ => e.Upholds typed) (e.Upholds typed)
      (modifySymbolic (fun s => s.update id change) e) := by
  have hrun : modifySymbolic (fun s => s.update id change) e =
      (ofExcept (e.symbolic.update id change) >>= fun symbolic =>
        modify fun e => { e with symbolic } : Exec Unit) e := rfl
  rw [hrun]
  rcases e.symbolic.update_cases id change with ⟨-, s, hs, hupdates⟩ | ⟨-, hs⟩
  · rw [hs]
    exact ⟨rfl, .refl _, hupdates.grows hcore, Grounded.updates h hupdates hcore⟩
  · rw [hs]
    exact h.upholds

theorem pushConstraint {pc : Formula} (hpc : pc.Formed e.scope) (source target : Address) :
    Yields (fun _ => e.Upholds typed) (e.Upholds typed) (pushConstraint pc source target e) := by
  have hrun : Engine.pushConstraint pc source target e =
      (if e.modes.isOn .pcTrackingSymbolic && !pc.symbolic then pure ()
        else Exec.build (outcomes pc source target) >>= fun branches =>
          modify fun e => { e with symbolic := { e.symbolic with
            constraints := e.symbolic.constraints.push { branches } } } : Exec Unit) e := rfl
  rw [hrun]
  split
  · exact h.upholds
  · refine (h.build (outcomes_formed hpc e.modes.rules source target)).bind
      fun branches e' hbranches => ?_
    obtain ⟨⟨pool, rfl⟩, hbranches⟩ := hbranches
    refine ⟨rfl, .of_vars rfl, .of_expressions rfl, Grounded.withPath h fun p hp => ?_⟩
    rcases Array.mem_push.1 hp with hp | rfl
    · exact h.path p hp
    · exact hbranches

theorem process {inst : Instruction} (hoperands : ∀ op ∈ inst.operands, op.Known) :
    e.Upholds typed (Step.after (Step.process ⟨e, inst⟩)).engine := by
  have hsound := Frame.process_sound (s := ⟨e, inst⟩) id .inl hoperands h
  exact ⟨hsound.1.arch, hsound.1.widens, hsound.2, hsound.1.grounded⟩

theorem apply {given : List Formula} {action : Action}
    (hpermitted : (Operation.act action).Permitted typed given) :
    e.Upholds typed (action.apply e) := by
  have hmachine : ∀ {e' : Engine} (machine : Machine), e.Upholds typed e' →
      e.Upholds typed { e' with machine } :=
    fun _ h => ⟨h.arch, h.widens, h.grows, h.grounded⟩
  cases action with
  | process inst => exact h.process hpermitted
  | setRegister reg value =>
    exact hmachine _ (h.fewer (e.symbolic.fewer_concretizeRegister reg) rfl (.inl rfl))
  | setMemory address bytes => exact hmachine _ (h.concretizeBytes _)
  | symbolizeRegister reg => exact (h.symbolizeRegister reg).after
  | symbolizeMemory access => exact (h.symbolizeMemory access).after
  | concretizeRegister reg =>
    exact h.fewer (e.symbolic.fewer_concretizeRegister reg) rfl (.inl rfl)
  | concretizeByte address =>
    exact h.fewer (e.symbolic.fewer_concretizeByte address) rfl (.inl rfl)
  | concretizeAccess access =>
    exact h.fewer (e.symbolic.fewer_concretizeAccess access) rfl (.inl rfl)
  | concretizeRegisters => exact h.fewer e.symbolic.fewer_concretizeRegisters rfl (.inl rfl)
  | concretizeMemory => exact h.fewer e.symbolic.fewer_concretizeMemory rfl (.inr rfl)
  | concretizeAll => exact h.fewer e.symbolic.fewer_concretizeAll rfl (.inr rfl)
  | retaint | setMode => exact ⟨rfl, .refl _, .refl _, h⟩

end Grounded

end Engine

/-- What every operation leaves, whether it succeeds or fails, and what it gives out. -/
theorem Operation.run_upholds {typed : Prop} {e : Engine} {given : List Formula}
    (h : e.Grounded typed typed) (hgiven : ∀ f ∈ given, f.Formed e.scope)
    {op : Operation} (hpermitted : op.Permitted typed given) :
    Yields (e.Offers typed) (e.Upholds typed) (op.run e) := by
  have hnone : ∀ {α : Type} {x : Exec α},
      Yields (fun _ => e.Upholds typed) (e.Upholds typed) (x e) →
      Yields (e.Offers typed) (e.Upholds typed) ((x >>= fun _ => pure []) e) :=
    fun hx => hx.bind fun _ _ ha => ⟨ha, by simp⟩
  have hpath : ∀ p ∈ e.symbolic.constraints.toList, ∀ b ∈ p.branches,
      b.constraint.Formed e.scope := fun p hp => h.path p (Array.mem_toList_iff.1 hp)
  -- a formula from outside may be an array, so no construction with it is sure to succeed
  have hloose : e.symbolic.Grounded False False e.arch e.scope :=
    Grounded.weaken h False.elim False.elim
  cases op with
  | act action => exact ⟨h.apply hpermitted, by simp⟩
  | setMachine machine => exact ⟨⟨rfl, .refl _, .refl _, h⟩, by simp⟩
  | create f origin comment address =>
    obtain ⟨hf, hword, hknown⟩ := hpermitted
    exact hnone ((h.create (hgiven f hf) hword hknown comment address).mono
      (fun _ _ ha => ha.1) fun _ he => he)
  | setTainted id tainted => exact hnone (h.update id fun _ => rfl)
  | setDisassembly id text => exact hnone (h.update id fun _ => rfl)
  | registerFormula reg =>
    exact h.gives ((hloose.registerFormula hpermitted e.machine e.modes.rules).ensures.mono
      fun f hf => List.forall_mem_singleton.2 hf.1.formed)
  | mergeRegister reg value =>
    exact h.gives ((hloose.mergeRegister (hgiven value hpermitted).proper e.machine
      e.modes.rules).mono fun f hf => List.forall_mem_singleton.2 hf.formed)
  | memoryFormula access =>
    exact h.gives ((hloose.memoryFormula id e.machine e.modes.rules
      (e.modes.isOn .alignedMemory) access).ensures.mono
      fun f hf => List.forall_mem_singleton.2 hf.1.formed)
  | memoryArray =>
    obtain ⟨pool, hrun⟩ := e.run_memoryArray
    have hpool := h.withPool pool
    have harray := hpool.trans (hpool.grounded.withArray h.indexed)
    show Yields _ _ ((Engine.memoryArray >>= fun f => pure [f]) e)
    rw [Exec.run_bind, hrun]
    exact ⟨harray, List.forall_mem_singleton.2 h.indexed.formed⟩
  | arrayLoad index bytes =>
    obtain ⟨r, hr, hpost, -⟩ := (loadBytes_makes h.indexed (hgiven index hpermitted).proper
      False.elim bytes).ensures
    obtain ⟨pool, hrun⟩ := run_arrayLoad hr
    have hpool := h.withPool pool
    have harray := hpool.trans (hpool.grounded.withArray h.indexed)
    show Yields _ _ ((Engine.arrayLoad index bytes >>= fun f => pure [f]) e)
    rw [Exec.run_bind, hrun]
    cases r with
    | ok f => exact ⟨harray, List.forall_mem_singleton.2 (hpost f rfl).1.formed⟩
    | error error => exact harray
  | arrayStore index value =>
    exact hnone (h.arrayStore (hgiven index hpermitted.1) (hgiven value hpermitted.2))
  | pushConstraint pc source target =>
    exact hnone (h.pushConstraint (hgiven pc hpermitted) source target)
  | clearConstraints =>
    exact ⟨⟨rfl, .refl _, .of_expressions rfl, Grounded.withPath h (by simp)⟩, by simp⟩
  | pathPredicate =>
    exact h.gives ((Path.predicate_formed e.modes.rules hpath).mono
      fun f hf => List.forall_mem_singleton.2 hf)
  | flipLast =>
    exact h.gives (Path.flipLast_formed e.modes.rules hpath)
  | expressions =>
    refine ⟨h.upholds, fun f hf => ?_⟩
    obtain ⟨x, hx, rfl⟩ := List.mem_map.1 hf
    obtain ⟨i, hi⟩ := List.mem_iff_getElem?.1 hx
    exact h.formulas i x (by simpa using hi)
  | conditions =>
    refine ⟨h.upholds, fun f hf => ?_⟩
    obtain ⟨p, hp, hf⟩ := List.mem_flatMap.1 hf
    obtain ⟨b, hb, rfl⟩ := List.mem_map.1 hf
    exact hpath p hp b hb

/-! Sequences of operations. -/

def Exec.given : EStateM.Result Error Engine (List Formula) → List Formula
  | .ok fs _ => fs
  | .error _ _ => []

/-- The instructions of the action name registers of some architecture. -/
def Action.Known : Action → Prop
  | .process inst => ∀ op ∈ inst.operands, op.Known
  | _ => True

theorem Action.Known.permitted {typed : Prop} {given : List Formula} {action : Action}
    (h : action.Known) : (Operation.act action).Permitted typed given := by
  cases action with
  | process inst => exact h
  | _ => trivial

namespace Engine

/-- One use of an engine or of its context, with the formulas given out before and after
it. If `typed` then what is recorded from outside is a word of at most 128 bits. -/
inductive Turn (typed : Prop) : Engine → List Formula → Engine → List Formula → Prop where
  | context {e : Engine} {ctx : Context} {given given' : List Formula}
      (use : e.context.Use given ctx given') : Turn typed e given { e with context := ctx } given'
  | performed {e : Engine} {given : List Formula} (op : Operation)
      (permitted : op.Permitted typed given) :
      Turn typed e given (Exec.after (op.run e)) (Exec.given (op.run e) ++ given)

inductive Turns (typed : Prop) (e : Engine) (given : List Formula) :
    Engine → List Formula → Prop where
  | none : Turns typed e given e given
  | next {e' e'' : Engine} {given' given'' : List Formula} (before : Turns typed e given e' given')
      (turn : Turn typed e' given' e'' given'') : Turns typed e given e'' given''

/-- A use of the engine is a turn, unless it records for a register of no architecture. -/
theorem Use.turn {e e' : Engine} {given given' : List Formula} (h : Use e given e' given') :
    Turn True e given e' given' ∨ ∃ f reg comment address, ¬ reg.Known ∧
      e' = after (create f (.register reg) comment address e) := by
  cases h with
  | context use => exact .inl (.context use)
  | @created _ f origin comment address listed word wide =>
    by_cases hknown : ∀ reg, origin = .register reg → reg.Known
    · have hturn := Turn.performed (e := e) (.create f origin comment address)
        ⟨listed, fun _ : True => ⟨word, wide⟩, hknown⟩
      rw [Operation.run, Exec.run_bind] at hturn
      revert hturn
      cases create f origin comment address e <;> exact .inl
    · push Not at hknown
      obtain ⟨reg, rfl, hreg⟩ := hknown
      exact .inr ⟨f, reg, comment, address, hreg, rfl⟩
  | acted action rebinds =>
    refine .inl (.performed (.act action) (Action.Known.permitted ?_))
    cases action with
    | process inst => exact rebinds.elim
    | _ => trivial
  | machine machine => exact .inl (.performed (.setMachine machine) trivial)

/-- A run of actions is a sequence of turns. -/
theorem turns_run (typed : Prop) (e : Engine) (given : List Formula) (actions : List Action)
    (hknown : ∀ action ∈ actions, action.Known) :
    Turns typed e given (Action.run e actions) given := by
  induction actions using List.reverseRecOn with
  | nil => exact .none
  | append_singleton actions action ih =>
    rw [Action.run, List.foldl_append]
    exact (ih fun other hother => hknown other (by simp [hother])).next
      (.performed (.act action) (hknown action (by simp)).permitted)

/-- The invariant of an engine in use. -/
structure Kept (typed : Prop) (e : Engine) (given : List Formula) : Prop where
  bounded : e.Bounded
  given : ∀ f ∈ given, f.Formed e.scope
  grounded : e.Grounded typed typed

variable {typed : Prop} {e e' : Engine} {given given' : List Formula}

theorem Kept.start (typed : Prop) (arch : Architecture) (modes : Modes) :
    ({ arch, modes } : Engine).Kept typed [] :=
  ⟨Context.bounded_empty, fun f hf => by simp at hf, .empty _ _ _ _⟩

theorem Turn.kept (hturn : Turn typed e given e' given') (h : e.Kept typed given) :
    e'.Kept typed given' ∧ e.Upholds typed e' := by
  cases hturn with
  | context use =>
    obtain ⟨hbounded, hext, hgiven⟩ := use.formed h.bounded h.given
    have hgrounded := Grounded.mono h.grounded hext
    exact ⟨⟨hbounded, hgiven, hgrounded⟩, ⟨rfl, ⟨hext, fun _ => hbounded⟩, .refl _, hgrounded⟩⟩
  | performed op permitted =>
    have hyields := Operation.run_upholds h.grounded h.given permitted
    revert hyields
    cases op.run e with
    | ok fs e₁ =>
      rintro ⟨hupholds, hfs⟩
      refine ⟨⟨hupholds.widens.bounded h.bounded, fun f hf => ?_, hupholds.grounded⟩, hupholds⟩
      rcases List.mem_append.1 hf with hf | hf
      · exact hfs f hf
      · exact (h.given f hf).mono hupholds.widens.scope
    | error error e₁ =>
      intro hupholds
      exact ⟨⟨hupholds.widens.bounded h.bounded,
        fun f hf => (h.given f hf).mono hupholds.widens.scope, hupholds.grounded⟩, hupholds⟩

/-- Every sequence of uses keeps the invariant, and the table only grows along it. -/
theorem Turns.kept (hturns : Turns typed e given e' given') (h : e.Kept typed given) :
    e'.Kept typed given' ∧ e.Upholds typed e' := by
  induction hturns with
  | none => exact ⟨h, h.grounded.upholds⟩
  | next _ turn ih =>
    obtain ⟨hkept, hupholds⟩ := turn.kept ih.1
    exact ⟨hkept, ih.2.trans hupholds⟩

end Engine

/-! What is found in the state. -/

theorem Expression.of_core {x y : Expression} (h : y.core = x.core) :
    y.formula = x.formula ∧ y.origin = x.origin ∧ y.comment = x.comment ∧
      y.address = x.address := by
  have hcomment : y.core.comment = x.core.comment := by rw [h]
  have haddress : y.core.address = x.core.address := by rw [h]
  exact ⟨formula_of_core h, origin_of_core h, hcomment, haddress⟩

namespace Symbolic.Grounded

variable {arch : Architecture} {scope : Scope} {s : Symbolic}
  (h : s.Grounded True True arch scope) (machine : Machine) (rules : Rules)

include h

theorem registerFormula_answers {reg : Register} (hreg : reg.Known) :
    ∃ f, Answers rules (s.registerFormula machine reg) (.ok f) ∧ f.width = reg.bits := by
  obtain ⟨f, hf, -, hwidth⟩ := (h.registerFormula hreg machine rules).answers trivial
  exact ⟨f, hf, hwidth⟩

theorem memoryFormula_answers (keep : Bool) (access : Access) :
    ((∃ f, Answers rules (s.memoryFormula keep machine access) (.ok f)) ↔
      1 ≤ access.bytes ∧ access.bytes ≤ 16) ∧
    ∀ f, Answers rules (s.memoryFormula keep machine access) (.ok f) →
      f.width = 8 * access.bytes := by
  obtain ⟨r, hr, hpost, hsure⟩ := h.memoryFormula id machine rules keep access
  have hmade : ∀ f, Answers rules (s.memoryFormula keep machine access) (.ok f) →
      f.Proper scope True ∧ f.width = 8 * access.bytes := by
    intro f hf
    obtain ⟨hproper, hwidth⟩ := hpost f (hr.unique hf)
    exact ⟨hproper, hwidth trivial⟩
  refine ⟨⟨?_, fun hsize => ?_⟩, fun f hf => (hmade f hf).2⟩
  · rintro ⟨f, hf⟩
    obtain ⟨hproper, hwidth⟩ := hmade f hf
    obtain ⟨hpos, hlimit⟩ := hproper.width_range trivial
    unfold limit at hlimit
    omega
  · obtain ⟨f, rfl⟩ := hsure ⟨trivial, hsize⟩
    exact ⟨f, hr⟩

end Symbolic.Grounded

/-- In every engine that operations lead to, where only words of at most 128 bits are
recorded from outside: the number of an expression is its index; a register is bound to
an expression of the register, and as wide; a byte of memory is bound to a byte of an
expression of memory, at the distance of the byte from the start of the access; whatever
follows, an expression keeps its formula, origin, comment and address; the formula of a
register can be built and is as wide as the register; and the formula of memory can be
built for 1 to 16 bytes, and has their width. -/
theorem state_is_grounded {arch : Architecture} {modes : Modes} {e : Engine}
    {given : List Formula} (h : Engine.Turns True { arch, modes } [] e given) :
    e.arch = arch ∧
    (∀ (i : Nat) (x : Expression), e.symbolic.expressions[i]? = some x → x.id = i) ∧
    (∀ key id : Nat, e.symbolic.registers[key]? = some id →
      ∃ (x : Expression) (reg : Register), e.symbolic.expressions[id]? = some x ∧
        x.origin = .register reg ∧ reg.id = key ∧ x.formula.width = reg.bits) ∧
    (∀ (address : Address) (cell : Cell), e.symbolic.memory[address]? = some cell →
      ∃ (x : Expression) (access : Access),
        e.symbolic.expressions[cell.expression]? = some x ∧ x.origin = .memory access ∧
        access.bits % 8 = 0 ∧ access.bits ≤ 128 ∧ x.formula.width = access.bits ∧
        cell.byte < access.bits / 8 ∧ address = access.address + cell.byte.toUInt64) ∧
    (∀ (e' : Engine) (given' : List Formula), e.Turns True given e' given' →
      e.symbolic.expressions.size ≤ e'.symbolic.expressions.size ∧
      ∀ (i : Nat) (x : Expression), e.symbolic.expressions[i]? = some x →
        ∃ y, e'.symbolic.expressions[i]? = some y ∧ y.formula = x.formula ∧
          y.origin = x.origin ∧ y.comment = x.comment ∧ y.address = x.address) ∧
    ∀ (machine : Machine) (rules : Rules),
      (∀ reg, e.arch.Has reg → ∃ f, Build.Answers rules
        (e.symbolic.registerFormula machine reg) (.ok f) ∧ f.width = reg.bits) ∧
      ∀ (keep : Bool) (access : Access),
        ((∃ f, Build.Answers rules (e.symbolic.memoryFormula keep machine access) (.ok f)) ↔
          1 ≤ access.bytes ∧ access.bytes ≤ 16) ∧
        ∀ f, Build.Answers rules (e.symbolic.memoryFormula keep machine access) (.ok f) →
          f.width = 8 * access.bytes := by
  obtain ⟨hkept, hupholds⟩ := h.kept (.start True arch modes)
  have hgrounded := hkept.grounded
  refine ⟨hupholds.arch, hgrounded.ids, fun key id hid => ?_, fun address cell hcell => ?_,
    fun e' given' hturns => ?_, fun machine rules => ⟨fun reg hreg => ?_, fun keep access => ?_⟩⟩
  · obtain ⟨x, hx, reg, horigin, hkey, -, -, hwidth, -⟩ := hgrounded.registers key id hid
    exact ⟨x, reg, hx, horigin, hkey, hwidth⟩
  · obtain ⟨x, access, hx, hof, hlt, hplace⟩ := hgrounded.memory trivial address cell hcell
    exact ⟨x, access, hx, hof.origin, hof.whole, hof.bound, hof.width_eq, hlt, hplace⟩
  · have hgrows := (hturns.kept hkept).2.grows
    refine ⟨hgrows.size_le, fun i x hx => ?_⟩
    obtain ⟨y, hy, hcore⟩ := hgrows.exists hx
    exact ⟨y, hy, Expression.of_core hcore⟩
  · exact Symbolic.Grounded.registerFormula_answers hgrounded machine rules ⟨_, hreg⟩
  · exact Symbolic.Grounded.memoryFormula_answers hgrounded machine rules keep access

theorem Operand.known_fixed (address : Address) (bits : Nat) :
    (memory (.fixed address bits)).Known := by
  constructor
  · intro reg hreg
    cases hreg
  · intro reg hreg
    cases hreg

def storeByte : Instruction :=
  .decoded 0x400000 5 59 [.memory (.fixed 0x1001 8), .immediate ⟨7, 8⟩] "mov byte ptr [0x1001], 7"

/-- A variable is recorded for the stack pointer, four bytes become another, and one of
them is written over. -/
theorem state_is_grounded_storeByte :
    ∃ (e : Engine) (given : List Formula),
      (Engine.Turns True (.new .x86_64) [] e given ∧
        e.symbolic.registers[Architecture.x86_64.stackPointer.id]? = some 0 ∧
        e.symbolic.memory[(0x1001 : Address)]? = some ⟨2, 0⟩ ∧
        e.symbolic.memory[(0x1002 : Address)]? = some ⟨1, 2⟩) ∧
      (∃ f, Build.Answers ⟨true, true⟩ (e.symbolic.registerFormula e.machine
        Architecture.x86_64.stackPointer) (.ok f) ∧ f.width = 64) ∧
      (∃ f, Build.Answers ⟨true, true⟩
        (e.symbolic.memoryFormula false e.machine (.fixed 0xffe 128)) (.ok f) ∧ f.width = 128) ∧
      ¬ ∃ f, Build.Answers ⟨true, true⟩
        (e.symbolic.memoryFormula false e.machine (.fixed 0xffe 136)) (.ok f) := by
  have hsp := Architecture.x86_64.stackPointer_has
  have start : Engine.Turns True (.new .x86_64) [] _ _ := .none
  have asked := start.next (.context (.asked (.newVariable 64 none 5) ⟨false, false⟩ trivial))
  have recorded := asked.next (.performed (.create (.var 0 64)
    (.register Architecture.x86_64.stackPointer) "" none)
    ⟨by decide +kernel, fun _ => by decide, fun reg hreg => by cases hreg; exact ⟨_, hsp⟩⟩)
  have named := recorded.next (.performed (.act (.symbolizeMemory (.fixed 0x1000 32))) trivial)
  have hknown : ∀ op ∈ storeByte.operands, op.Known :=
    Instruction.decoded_two (Operand.known_fixed _ _) trivial
  -- the run is evaluated once, and not looked into again
  refine Exists₂.imp (fun e given h => ⟨h, ?_⟩)
    ⟨_, _, named.next (.performed (.act (.process storeByte)) hknown), by decide +kernel⟩
  obtain ⟨harch, -, -, -, -, hbuilt⟩ := state_is_grounded h.1
  obtain ⟨hregister, hmemory⟩ := hbuilt e.machine ⟨true, true⟩
  rw [harch] at hregister
  obtain ⟨f, hf, hwidth⟩ := hregister _ hsp
  obtain ⟨g, hg⟩ := (hmemory false (.fixed 0xffe 128)).1.2 (by decide)
  refine ⟨⟨f, hf, hwidth.trans (by decide +kernel)⟩, ⟨g, hg, (hmemory _ _).2 g hg⟩,
    fun hanswers => ?_⟩
  exact absurd ((hmemory _ _).1.1 hanswers) (by decide)

end Concolic
