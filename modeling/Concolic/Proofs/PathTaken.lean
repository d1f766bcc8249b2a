import Mathlib.Data.List.Induction
import Concolic.Proofs.Reachable

/-
  The recorded path is the path that was taken.

  An instruction adds at most one decision to the record, whose marked outcome is
  the address that the instruction went on to (`Engine.Agrees.process_path`). No
  action changes what is recorded or the value of a variable, so at every later
  point of a run each decision is that of an instruction of the run, and its
  condition holds (`Action.run_recorded`). The predicate of the path tests that all
  outcomes happen that happened, and its neighbour that the last choice goes the
  other way (`Path.answers_flipLast`).
-/

namespace Concolic

open Step Architecture Concolic.Action Formula Engine Instruction Concolic.Frame

/-! The outcomes of a record. -/

namespace PathConstraint.Records

variable {ctx : Context} {source target : Address} {p : PathConstraint} {b : Branch}

section

variable (h : p.Records ctx source target)

include h

/-- The outcome that is found is the only one that is marked. -/
theorem taken?_eq_some : p.taken? = some b ↔ b ∈ p.branches ∧ b.taken = true := by
  obtain ⟨c, hc, -⟩ := h.taken
  have hfound : p.taken? = some c := by
    unfold taken?
    rw [← List.head?_filter, hc]
    rfl
  rw [← List.mem_filter, hc, hfound, List.mem_singleton, Option.some.injEq, eq_comm]

theorem evaluate_taken (hb : b ∈ p.branches) (htaken : b.taken = true) :
    ctx.evaluate b.constraint = 1 := by
  obtain ⟨c, hc, -, hone⟩ := h.taken
  have hmem : b ∈ p.branches.filter Branch.taken := List.mem_filter.2 ⟨hb, htaken⟩
  rw [hc, List.mem_singleton] at hmem
  rw [hmem]
  exact hone

/-- A decision between two outcomes has one that did not happen, and it holds exactly
where the one that happened does not. -/
theorem exists_other (hmultiple : p.isMultiple = true) :
    ∃ b other, b ∈ p.branches ∧ b.taken = true ∧ p.other? = some other ∧
      other ∈ p.branches ∧ other.taken = false ∧ ∀ v : Valuation, v.Fits ctx.scope →
        (other.constraint.value v = 1 ↔ b.constraint.value v ≠ 1) := by
  obtain ⟨c, hc, -⟩ := h.taken
  obtain ⟨x, y, hxy, hone⟩ := h.alternatives hmultiple
  unfold other?
  rw [hxy] at hc ⊢
  cases hx : x.taken <;> cases hy : y.taken
  · simp [hx, hy] at hc
  · exact ⟨y, x, by simp, hy, by simp [hx], by simp, hx, hone⟩
  · refine ⟨x, y, by simp, hx, by simp [hx, hy], by simp, hy, fun v hv => ?_⟩
    rw [Ne, hone v hv, Ne, not_not]
  · simp [hx, hy] at hc

end

end PathConstraint.Records

namespace Path

/-- All outcomes happen that happened. -/
def Followed (path : List PathConstraint) (v : Valuation) : Prop :=
  ∀ p ∈ path, ∀ b ∈ p.branches, b.taken = true → b.constraint.value v = 1

/-- The path is one of recorded decisions. -/
def Recorded (ctx : Context) (path : List PathConstraint) : Prop :=
  ∀ p ∈ path, ∃ source target, p.Records ctx source target

variable {ctx : Context} {path : List PathConstraint}

theorem Recorded.bits (h : Recorded ctx path) : ∀ p ∈ path, ∀ b ∈ p.branches,
    b.constraint.OverVariables ctx.scope ∧ b.constraint.width = 1 := by
  intro p hp b hb
  obtain ⟨source, target, hrecords⟩ := h p hp
  exact hrecords.bits b hb

theorem Recorded.followed_iff (h : Recorded ctx path) {v : Valuation} :
    (∀ p ∈ path, ∀ b, p.taken? = some b → b.constraint.eval v = 1) ↔ Followed path v := by
  refine forall₂_congr fun p hp => forall_congr' fun b => ?_
  obtain ⟨source, target, hrecords⟩ := h p hp
  rw [hrecords.taken?_eq_some, and_imp, value_eq_eval]

theorem Recorded.followed_now (h : Recorded ctx path) (byte : Address → UInt8) :
    Followed path (ctx.valuation byte) := by
  intro p hp b hb htaken
  obtain ⟨source, target, hrecords⟩ := h p hp
  rw [value_eq_eval, ← Context.evaluate_eq_eval (hrecords.bits b hb).1 byte]
  exact hrecords.evaluate_taken hb htaken

/-! The last choice. -/

theorem lastMultiple?_eq_none {path : List PathConstraint} :
    lastMultiple? path = none ↔ ∀ p ∈ path, p.isMultiple = false := by
  induction path with
  | nil => simp [lastMultiple?]
  | cons p rest ih =>
    rw [List.forall_mem_cons, ← ih]
    cases hrest : lastMultiple? rest with
    | some found => simp [lastMultiple?, hrest]
    | none => cases hp : p.isMultiple <;> simp [lastMultiple?, hrest, hp]

/-- The last decision of the path that was a choice, and those before it. -/
def LastChoice (path before : List PathConstraint) (last : PathConstraint) : Prop :=
  ∃ rest, path = before ++ last :: rest ∧ last.isMultiple = true ∧
    ∀ p ∈ rest, p.isMultiple = false

theorem LastChoice.of_lastMultiple? {before : List PathConstraint} {last : PathConstraint} :
    ∀ {path : List PathConstraint}, lastMultiple? path = some (before, last) →
      LastChoice path before last
  | [], h => by simp [lastMultiple?] at h
  | p :: tail, h => by
    cases htail : lastMultiple? tail with
    | some found =>
      simp only [lastMultiple?, htail, Option.some.injEq, Prod.mk.injEq] at h
      obtain ⟨rfl, rfl⟩ := h
      obtain ⟨rest, hrest, hlast, hsingle⟩ := of_lastMultiple? htail
      exact ⟨rest, congrArg (p :: ·) hrest, hlast, hsingle⟩
    | none =>
      simp only [lastMultiple?, htail] at h
      split at h
      · next hp =>
        simp only [Option.some.injEq, Prod.mk.injEq] at h
        obtain ⟨rfl, rfl⟩ := h
        exact ⟨tail, rfl, hp, lastMultiple?_eq_none.1 htail⟩
      · cases h

/-- The condition of the neighbour of a path: there is none if no decision was a
choice, and otherwise it holds where the last that was goes the other way and
all before it happens as it did. -/
def Neighbour (ctx : Context) (path : List PathConstraint) : Option Formula → Prop
  | none => ∀ p ∈ path, p.isMultiple = false
  | some f => ∃ before last other, LastChoice path before last ∧ other ∈ last.branches ∧
    other.taken = false ∧ ∀ v : Valuation, v.Fits ctx.scope →
      (f.value v = 1 ↔ Followed before v ∧ other.constraint.value v = 1)

/-- The neighbour can be asked for, and the path itself is not it. -/
theorem answers_flipLast (rules : Rules) (h : Recorded ctx path) (hb : ctx.Bounded) :
    ∃ r, Build.Answers rules (flipLast path) (.ok r) ∧ Neighbour ctx path r ∧
      ∀ f, r = some f → f.OverVariables ctx.scope ∧ ctx.evaluate f = 0 := by
  unfold flipLast
  cases hfound : lastMultiple? path with
  | none => exact ⟨none, .pure _, lastMultiple?_eq_none.1 hfound, nofun⟩
  | some found =>
    obtain ⟨before, last⟩ := found
    have hchoice := LastChoice.of_lastMultiple? hfound
    have ⟨rest, hsplit, hmultiple, _⟩ := hchoice
    have hbefore : Recorded ctx before := fun p hp => h p (by simp [hsplit, hp])
    obtain ⟨source, target, hlast⟩ := h last (by simp [hsplit])
    obtain ⟨b, other, hbmem, htaken, hother, hmem, huntaken, hone⟩ := hlast.exists_other hmultiple
    obtain ⟨hover, hwidth⟩ := hlast.bits other hmem
    have hbit : other.constraint.Tests ctx.scope fun v => other.constraint.value v = 1 :=
      ⟨hover, hwidth, fun v _ => by rw [value_eq_eval]⟩
    obtain ⟨start, hstart, htrue⟩ := Tests.answers_flag ctx.scope rules
    obtain ⟨g, hg, hpath⟩ := answers_conjoin rules before htrue hbefore.bits
    obtain ⟨f, hf, htests⟩ := hpath.answers_and hbit rules
    have hiff : ∀ v : Valuation, v.Fits ctx.scope →
        (f.value v = 1 ↔ Followed before v ∧ other.constraint.value v = 1) := by
      intro v hv
      rw [value_eq_eval, htests.eval_iff v hv, true_and, hbefore.followed_iff]
    refine ⟨some f, hstart.bind (hg.bind ?_), ⟨before, last, other, hchoice, hmem, huntaken, hiff⟩,
      ?_⟩
    · simp only [hother]
      exact hf.bind (.pure _)
    · intro f' hf'
      obtain rfl := Option.some.inj hf'
      refine ⟨htests.overVariables, ?_⟩
      have hfits := hb.fits fun _ => 0
      rw [Context.evaluate_eq_eval htests.overVariables fun _ => 0]
      refine (htests.overVariables.wellFormed.eval_bit hfits htests.width_eq).resolve_right ?_
      -- the last choice went the way that excludes the other
      rw [← value_eq_eval, hiff _ hfits]
      rintro ⟨-, hvalue⟩
      exact (hone _ hfits).1 hvalue (h.followed_now _ last (by simp [hsplit]) b hbmem htaken)

end Path

/-! Instructions and actions. -/

section

variable {sized : Prop} {e : Engine}

/-- An instruction records at most one decision, which leads from its address to the one
that it goes on to. -/
theorem Engine.Agrees.process_path (h : e.Agrees sized) {inst : Instruction}
    (hsuits : ∀ op ∈ inst.operands, op.Suits e.arch sized) {s : Frame}
    (hs : after (Step.process ⟨e, inst⟩) = s) :
    e.context.Later s.context ∧
      (s.symbolic.constraints = e.symbolic.constraints ∨
        ∃ p, s.symbolic.constraints = e.symbolic.constraints.push p ∧
          p.Records s.context inst.address s.instruction.next) := by
  have hended := h.executed hsuits
  -- what is dropped at the end concerns neither the record nor the variables
  have hkept : s.context = (after (execute (start ⟨e, inst⟩))).context ∧
      s.symbolic.constraints = (after (execute (start ⟨e, inst⟩))).symbolic.constraints ∧
      s.instruction.next = (after (execute (start ⟨e, inst⟩))).instruction.next := by
    have hlisted := hended.leftListed
    rw [← hs, run_process, run_bind]
    revert hlisted
    cases execute (start ⟨e, inst⟩) with
    | error error s' => exact fun _ => ⟨rfl, rfl, rfl⟩
    | ok fault s' =>
      intro hlisted
      obtain ⟨s'', hsettle, hsettles⟩ := run_settle (s := s') hlisted fault
      simp only [hsettle]
      refine ⟨?_, hsettles.symbolic.constraints, hsettles.next⟩
      show s''.context = s'.context
      rw [hsettles.engine]
  obtain ⟨hcontext, hconstraints, hnext⟩ := hkept
  rw [hcontext, hconstraints, hnext]
  refine ⟨hended.left, ?_⟩
  rcases hended.path with ⟨hpath, -⟩ | ⟨p, -, hpath, -, -, hrecords⟩
  · exact .inl hpath
  · exact .inr ⟨p, hpath, hrecords⟩

omit e in
theorem Engine.constraints_setMemory (e : Engine) (address : Address) (bytes : List UInt8) :
    (e.setMemory address bytes).symbolic.constraints = e.symbolic.constraints := by
  have hfold : ∀ (l : List Address) (s : Symbolic),
      (l.foldl Symbolic.concretizeByte s).constraints = s.constraints := by
    intro l
    induction l with
    | nil => exact fun _ => rfl
    | cons a l ih => exact fun s => ih (s.concretizeByte a)
  exact hfold _ e.symbolic

namespace Action

theorem apply_path (h : e.Agrees sized) {action : Action} (hallowed : action.Allowed e.arch sized) :
    e.context.Later (action.apply e).context ∧
      ((action.apply e).symbolic.constraints = e.symbolic.constraints ∨
        ∃ inst p, action = .process inst ∧
          (action.apply e).symbolic.constraints = e.symbolic.constraints.push p ∧
          p.Records (action.apply e).context inst.address
            (after (Step.process ⟨e, inst⟩)).instruction.next) := by
  cases action with
  | process inst =>
    obtain ⟨hlater, hpath⟩ := h.process_path hallowed rfl
    exact ⟨hlater, hpath.imp id fun ⟨p, hp⟩ => ⟨inst, p, rfl, hp⟩⟩
  | symbolizeRegister reg =>
    obtain ⟨pool, root, g, -, -, -, -, hrun⟩ := h.run_symbolizeRegister hallowed.1 hallowed.2
    simp only [apply, hrun]
    exact ⟨e.context.addVariable_later _ _ _, .inl (constraints_assign _ _ _ _)⟩
  | symbolizeMemory access =>
    obtain ⟨pool, hrun⟩ := run_symbolizeMemory access h.noArray
    simp only [apply, hrun]
    split
    · cases Symbolic.checkOrigin (.var e.vars.size access.bits) (.memory access) with
      | error error => exact ⟨e.context.addVariable_later _ _ _, .inl rfl⟩
      | ok _ => exact ⟨e.context.addVariable_later _ _ _, .inl (constraints_assign _ _ _ _)⟩
    · exact ⟨.refl _, .inl rfl⟩
  | setMemory address bytes => exact ⟨.refl _, .inl (e.constraints_setMemory address bytes)⟩
  | _ => exact ⟨.refl _, .inl rfl⟩

omit e in
/-- The decision with number `k` in the record of a run: the instruction that took it, and
which way it went. -/
def Recorded (e : Engine) (done : List Action) (k : Nat) (p : PathConstraint) : Prop :=
  ∃ before inst after, done = before ++ .process inst :: after ∧
    (run e before).symbolic.constraints.size = k ∧
    p.Records (run e done).context inst.address
      (Step.after (Step.process ⟨run e before, inst⟩)).instruction.next

theorem Recorded.snoc {done : List Action} {k : Nat} {p : PathConstraint} (h : Recorded e done k p)
    (action : Action) (hlater : (run e done).context.Later (run e (done ++ [action])).context) :
    Recorded e (done ++ [action]) k p := by
  obtain ⟨before, inst, after, rfl, hsize, hrecords⟩ := h
  exact ⟨before, inst, after ++ [action], by simp, hsize, hrecords.later hlater⟩

/-- Every decision in the record of a run is that of one of its instructions. -/
theorem run_recorded (h : e.Agrees sized) (hempty : e.symbolic.constraints = #[])
    (done : List Action) (hallowed : ∀ action ∈ done, action.Allowed e.arch sized)
    (haligned : .setMode .alignedMemory true ∈ done → sized) :
    ∀ (k : Nat) (p : PathConstraint), (run e done).symbolic.constraints[k]? = some p →
      Recorded e done k p := by
  induction done using List.reverseRecOn with
  | nil =>
    intro k p hk
    simp [run, hempty] at hk
  | append_singleton done action ih =>
    have hdone : ∀ action ∈ done, action.Allowed e.arch sized :=
      fun action hmem => hallowed action (by simp [hmem])
    have haligned' : .setMode .alignedMemory true ∈ done → sized :=
      fun hmem => haligned (by simp [hmem])
    obtain ⟨hagrees, harch⟩ := run_agrees done h hdone haligned'
    have hlast : run e (done ++ [action]) = action.apply (run e done) := by
      unfold run
      rw [List.foldl_append]
      rfl
    obtain ⟨hlater, hpath⟩ := apply_path hagrees (harch ▸ hallowed action (by simp))
    rw [← hlast] at hlater hpath
    intro k p hk
    rcases hpath with hsame | ⟨inst, q, rfl, hpush, hrecords⟩
    · rw [hsame] at hk
      exact (ih hdone haligned' k p hk).snoc action hlater
    · rw [hpush, Array.getElem?_push] at hk
      split at hk
      · next hsize =>
        cases hk
        exact ⟨done, inst, [], rfl, hsize.symm, hrecords⟩
      · exact (ih hdone haligned' k p hk).snoc _ hlater

end Action

end

/-! The conditions of the path. -/

/-- The condition of the path holds now, and under other values of the variables
exactly where all outcomes happen that happened; and that of its neighbour does not
hold now. Both can be asked for, which leaves the engine as it is but for the pool. -/
structure Engine.Traced (e : Engine) : Prop where
  predicate : ∃ f pool,
    Engine.pathPredicate e = .ok f { e with context := { e.context with pool } } ∧
      e.evaluate f = 1 ∧ ∀ v : Valuation, v.Fits e.scope →
        (f.value v = 1 ↔ Path.Followed e.symbolic.constraints.toList v)
  neighbour : ∃ r pool,
    Engine.flipLast e = .ok r { e with context := { e.context with pool } } ∧
      Path.Neighbour e.context e.symbolic.constraints.toList r ∧
      ∀ f, r = some f → e.evaluate f = 0

theorem Engine.Agrees.traced {sized : Prop} {e : Engine} (h : e.Agrees sized)
    (hpath : Path.Recorded e.context e.symbolic.constraints.toList) : e.Traced := by
  constructor
  · obtain ⟨f, hf, htests⟩ := Path.answers_predicate e.modes.rules hpath.bits
    obtain ⟨pool, hrun⟩ := run_build_ok hf
    have hiff : ∀ v : Valuation, v.Fits e.scope →
        (f.value v = 1 ↔ Path.Followed e.symbolic.constraints.toList v) := by
      intro v hv
      rw [value_eq_eval, htests.eval_iff v hv, hpath.followed_iff]
    refine ⟨f, pool, hrun, ?_, hiff⟩
    exact (hiff _ (h.bounded.fits e.machine.byte)).2 (hpath.followed_now e.machine.byte)
  · obtain ⟨r, hr, hneighbour, hzero⟩ := Path.answers_flipLast e.modes.rules hpath h.bounded
    obtain ⟨pool, hrun⟩ := run_build_ok hr
    refine ⟨r, pool, hrun, hneighbour, fun f hf => ?_⟩
    obtain ⟨hover, hvalue⟩ := hzero f hf
    rw [evaluate_eq hover, hvalue]

/-- After every one of any actions on a new engine, over a context in use, each decision
that is recorded is that of an instruction which was processed, from its address to the
one that it went on to, and the conditions that can be asked for describe the path. -/
theorem path_is_taken {context : Context} {given : List Formula}
    (session : Session context given) (arch : Architecture) {modes : Modes}
    (harray : modes.isOn .memoryArray = false) (actions : List Action)
    (hallowed : ∀ action ∈ actions, action.Allowed arch
      (modes.isOn .alignedMemory = true ∨ .setMode .alignedMemory true ∈ actions)) :
    ∀ done, done <+: actions →
      (∀ (k : Nat) (p : PathConstraint),
        (Action.run { arch, modes, context } done).symbolic.constraints[k]? = some p →
        Action.Recorded { arch, modes, context } done k p) ∧
      (Action.run { arch, modes, context } done).Traced := by
  intro done hdone
  have hnew : ({ arch, modes, context } : Engine).Agrees
      (modes.isOn .alignedMemory = true ∨ .setMode .alignedMemory true ∈ actions) :=
    Engine.agrees_new session arch harray .inl
  have hallowed' : ∀ action ∈ done, action.Allowed arch
      (modes.isOn .alignedMemory = true ∨ .setMode .alignedMemory true ∈ actions) :=
    fun action hmem => hallowed action (hdone.subset hmem)
  obtain ⟨hagrees, -⟩ := Action.run_agrees done hnew hallowed' fun hmem => .inr (hdone.subset hmem)
  have hrecorded := Action.run_recorded hnew rfl done hallowed' fun hmem => .inr (hdone.subset hmem)
  refine ⟨hrecorded, hagrees.traced fun p hp => ?_⟩
  obtain ⟨k, hk⟩ := List.mem_iff_getElem?.1 hp
  rw [Array.getElem?_toList] at hk
  obtain ⟨before, inst, after, -, -, hrecords⟩ := hrecorded k p hk
  exact ⟨_, _, hrecords⟩

/-- A branch on whether a sum with a symbolic stack pointer is zero, and a jump to the
sum. -/
def branchThenJump : List Action :=
  [.setRegister Architecture.x86_64.stackPointer 5,
    .symbolizeRegister Architecture.x86_64.stackPointer,
    .process (.decoded 0x1000 4 2
      [.register Architecture.x86_64.stackPointer, .immediate ⟨8, 64⟩] "add rsp, 8"),
    .process (.decoded 0x1004 2 45 [.immediate ⟨0x1010, 64⟩] "je 0x1010"),
    .process (.decoded 0x1006 2 50 [.register Architecture.x86_64.stackPointer] "jmp rsp"),
    .setRegister Architecture.x86_64.stackPointer 0]

theorem path_is_taken_branchThenJump :
    ((Action.run (.new .x86_64) branchThenJump).symbolic.constraints.map
      fun p => p.branches.map Branch.taken) = #[[false, true], [true]] ∧
    (∀ action ∈ branchThenJump, action.Allowed .x86_64
      (Modes.initial.isOn .alignedMemory = true ∨ .setMode .alignedMemory true ∈ branchThenJump)) ∧
    ∀ done, done <+: branchThenJump →
      (∀ (k : Nat) (p : PathConstraint),
        (Action.run (.new .x86_64) done).symbolic.constraints[k]? = some p →
        Action.Recorded (.new .x86_64) done k p) ∧
      (Action.run (.new .x86_64) done).Traced := by
  have hsp := Architecture.x86_64.stackPointer_has
  refine ⟨by decide +kernel, (and_iff_left_of_imp (path_is_taken .start .x86_64 rfl
    branchThenJump)).2 fun action haction => ?_⟩
  simp only [branchThenJump, List.mem_cons, List.not_mem_nil, or_false] at haction
  rcases haction with rfl | rfl | rfl | rfl | rfl | rfl
  · trivial
  · exact ⟨hsp, .inl (by decide +kernel)⟩
  · exact Instruction.decoded_two hsp trivial
  · exact Instruction.decoded_one trivial
  · exact Instruction.decoded_one hsp
  · trivial

end Concolic
