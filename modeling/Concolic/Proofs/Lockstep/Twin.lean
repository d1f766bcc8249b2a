import Concolic.Proofs.Lockstep.AArch64
import Concolic.Proofs.Lockstep.Record
import Concolic.Proofs.Lockstep.X86.Semantics
import Concolic.Proofs.Twin

/-
  Twins process an instruction alike.

  The simulation `twin` relates two frames whose engines are twins. A formula is
  known if both runs have it, over the variables; the values may differ, and so
  may taint. Its laws are shown here for the primitive parts of the processing,
  so that every instruction leads from twins to twins: both runs record the same
  formulas and bind them alike, and each stores the values of its own.
-/

namespace Concolic

open Step Context Symbolic Exec Formula Word Build

variable {l m b b' : Bool} {f g : Formula} {s t s' t' : Frame} {reg : Register} {access : Access}
  {arch : Architecture} {dst : Operand}

/-! Frames. -/

/-- Two frames in the middle of an instruction that started with `s₀` and `t₀`. -/
structure Frame.Paired (sized : Prop) (s₀ t₀ s t : Frame) : Prop where
  twins : s.engine.Twins sized t.engine
  code : s.SameCode s₀.arch (Operand.Suits s₀.arch sized) t
  text : s.instruction.disassembly = t.instruction.disassembly
  place : s.instruction.address = s₀.instruction.address
  leftListed : s.Listed
  rightListed : t.Listed
  modes : s.modes = s₀.modes
  left : s₀.context.Later s.context
  right : t₀.context.Later t.context
  leftPath : s.symbolic.constraints = s₀.symbolic.constraints
  rightPath : t.symbolic.constraints = t₀.symbolic.constraints

/-- Decisions of two runs: an outcome of the first run's holds under the variables
of the second exactly if the second run went that way. -/
def PathConstraint.Matches (e e' : Engine) (p p' : PathConstraint) : Prop :=
  ∀ b ∈ p.branches, b.constraint.OverVariables e.scope ∧
    (e'.context.evaluate b.constraint = 1 ↔
      ∃ b' ∈ p'.branches, b'.taken = true ∧ b'.target = b.target)

/-- Two frames after an instruction that started with `s₀` and `t₀`. -/
structure Frame.Ended (sized : Prop) (s₀ t₀ s t : Frame) : Prop where
  twins : s.engine.Twins sized t.engine
  leftListed : s.Listed
  rightListed : t.Listed
  arch : s.arch = s₀.arch
  modes : s.modes = s₀.modes
  left : s₀.context.Later s.context
  right : t₀.context.Later t.context
  path : (s.symbolic.constraints = s₀.symbolic.constraints ∧
      t.symbolic.constraints = t₀.symbolic.constraints) ∨
    ∃ p p', s.symbolic.constraints = s₀.symbolic.constraints.push p ∧
      t.symbolic.constraints = t₀.symbolic.constraints.push p' ∧
      p.Matches s.engine t.engine p' ∧
      p.Records s.context s₀.instruction.address s.instruction.next

namespace Frame.Paired

variable {sized : Prop} {s₀ t₀ s t s' t' : Frame}

theorem ended (h : Paired sized s₀ t₀ s t) : Ended sized s₀ t₀ s t :=
  ⟨h.twins, h.leftListed, h.rightListed, h.code.archLeft, h.modes, h.left, h.right,
    .inl ⟨h.leftPath, h.rightPath⟩⟩

theorem next (h : Paired sized s₀ t₀ s t) (hs : s.Keeps s') (ht : t.Keeps t')
    (htwins : s'.engine.Twins sized t'.engine) : Paired sized s₀ t₀ s' t' where
  twins := htwins
  code := hs.sameCode ht h.code
  text := by
    rw [hs.same Instruction.disassembly, ht.same Instruction.disassembly, h.text]
  place := (hs.same Instruction.address).trans h.place
  leftListed := hs.listed h.leftListed
  rightListed := ht.listed h.rightListed
  modes := hs.modes.trans h.modes
  left := h.left.trans hs.later
  right := h.right.trans ht.later
  leftPath := hs.constraints.trans h.leftPath
  rightPath := ht.constraints.trans h.rightPath

theorem like (h : Paired sized s₀ t₀ s t) (hs : s.Like s') (ht : t.Like t') :
    Paired sized s₀ t₀ s' t' :=
  h.next (.of_like hs) (.of_like ht) (h.twins.like hs.engine ht.engine)

end Frame.Paired

/-- The simulation of twins. Of the level `false` are the formulas that have one
value in both runs; taint follows no level. -/
def twin (sized : Prop) (s₀ t₀ : Frame) : Simulation where
  arch := s₀.arch
  World := Frame × Frame
  le w w' := w.1.context.Later w'.1.context ∧
    w.2.context.Later w'.2.context
  frames w s t := w.1.Like s ∧ w.2.Like t ∧ Frame.Paired sized s₀ t₀ s t
  final := Frame.Ended sized s₀ t₀
  failed _ := Frame.Ended sized s₀ t₀
  sure := False
  source := Operand.Suits s₀.arch sized
  legible _ _ := True
  target := Operand.Suits s₀.arch sized
  level _ _ := true
  knows w l f g := f = g ∧ f.OverVariables w.1.scope ∧
    (l = false → f.OverVariables w.2.scope ∧
      w.1.context.evaluate f = w.2.context.evaluate f)
  taint _ _ _ := True
  whole _ _ := True

namespace Twin

open Simulation

variable {sized : Prop} {s₀ t₀ : Frame} {w : Frame × Frame}

theorem exchangeable : X86.Exchangeable (twin sized s₀ t₀) w := by
  intro s t s' t' h h'
  exact ⟨h.1, h'.2.1, h.2.2.like ⟨.refl _, rfl⟩ (h.2.1.symm.trans h'.2.1)⟩

/-! Constructions. -/

theorem reads_build {α : Type} {x y : Step α} {post : α → α → Prop}
    (h : ∀ s t, (twin sized s₀ t₀).frames w s t → ∃ b, x s = exec (build b) s ∧
      y t = exec (build b) t ∧
      Ensures s.modes.rules b fun a => post a a) : (twin sized s₀ t₀).Reads w x y post := by
  intro s t hst
  obtain ⟨b, hx, hy, r, hr, hpost, -⟩ := h s t hst
  obtain ⟨pool, hrun⟩ := run_build hr
  have hr' : Answers t.modes.rules b r := hst.2.2.twins.modes ▸ hr
  obtain ⟨pool', hrun'⟩ := run_build hr'
  have hs := s.like_withPool pool
  have ht := t.like_withPool pool'
  have hframes : (twin sized s₀ t₀).frames w (s.withPool pool) (t.withPool pool') :=
    ⟨hst.1.trans hs, hst.2.1.trans ht, hst.2.2.like hs ht⟩
  rw [hx, hy, hrun, hrun']
  cases r with
  | ok a => exact ⟨hframes, hpost a rfl⟩
  | error e => exact ⟨rfl, hframes.2.2.ended⟩

/-- What is said of a world's variables holds of its frames'. -/
theorem scope_eq (h : (twin sized s₀ t₀).frames w s t) : s.scope = w.1.scope := by
  unfold scope
  rw [h.1.engine.vars]

theorem scope_right (h : (twin sized s₀ t₀).frames w s t) : w.2.scope = w.1.scope := by
  have hscope : t.scope = w.2.scope := by
    unfold scope
    rw [h.2.1.engine.vars]
  rw [← hscope, ← h.2.2.twins.scope_eq, scope_eq h]

theorem evaluate_congr {ctx ctx' : Context} (h : ctx.vars = ctx'.vars) :
    ctx.evaluate = ctx'.evaluate := by
  funext f
  simp only [Context.evaluate, valuation]
  congr 2
  funext id
  simp only [variableValue, h]

section

variable (h : (twin sized s₀ t₀).frames w s t)

include h

section

variable (hf : f.OverVariables w.1.scope)

include hf

/-- The values of a known formula in the two frames are those in the world. -/
theorem evaluate_left : s.evaluate f = w.1.context.evaluate f := by
  rw [← scope_eq h] at hf
  rw [Engine.evaluate_eq hf, evaluate_congr h.1.engine.vars]

theorem evaluate_right : t.evaluate f = w.2.context.evaluate f := by
  have hscope : t.scope = w.1.scope := h.2.2.twins.scope_eq.symm.trans (scope_eq h)
  rw [← hscope] at hf
  rw [Engine.evaluate_eq hf, evaluate_congr h.2.1.engine.vars]

/-- A known formula has its value over the variables of either frame. -/
theorem evaluate_self : s.evaluate f = s.context.evaluate f := Engine.evaluate_eq (scope_eq h ▸ hf)

theorem evaluate_self' : t.evaluate f = t.context.evaluate f :=
  Engine.evaluate_eq (h.2.2.twins.scope_eq ▸ scope_eq h ▸ hf)

end

theorem bounded : w.1.Bounded ∧ w.2.Bounded :=
  ⟨h.1.symm.engine.weakens.bounded h.2.2.twins.left.bounded,
    h.2.1.symm.engine.weakens.bounded h.2.2.twins.right.bounded⟩

end

theorem constant (value width : Nat) :
    (twin sized s₀ t₀).Reads w (exec (build (constant value width)))
      (exec (build (constant value width)))
      fun f g => (twin sized s₀ t₀).knows w false f g ∧ f.width = width ∧ 0 < width := by
  refine reads_build fun s t hst => ⟨_, rfl, rfl, ?_⟩
  refine (Makes.word value width).ensures.mono fun f hf => ?_
  obtain ⟨hw, rfl⟩ := hf
  have hover (scope : Scope) :
      (Formula.constant (truncate width value) width).OverVariables scope :=
    ⟨⟨hw, truncate_lt _ _⟩, trivial⟩
  refine ⟨⟨rfl, hover _, fun _ => ⟨hover _, ?_⟩⟩, rfl, hw.1⟩
  rw [Context.evaluate, Context.evaluate, value_eq_eval, value_eq_eval]
  rfl

/-- A constructor on known formulas gives a known formula, of the level of the value
of the plain operator. -/
theorem ensures_call (hst : (twin sized s₀ t₀).frames w s t) {c : Call}
    (hc : ∀ f ∈ c.plain.children, f.OverVariables w.1.scope)
    (hvalue : l = false → c.plain.eval (w.1.context.valuation fun _ => 0) =
      c.plain.eval (w.2.context.valuation fun _ => 0)) (rules : Rules) :
    Ensures rules c.run fun r => (twin sized s₀ t₀).knows w l r r ∧
      r.width = c.plain.width := by
  refine (c.keptAs (.overVariables _) rules hc False.elim).mono id fun r hr => ?_
  obtain ⟨-, hover, hwidth, -, -, heval⟩ := hr
  obtain ⟨hleft, hright⟩ := bounded hst
  refine ⟨⟨rfl, hover, fun hl => ⟨scope_right hst ▸ hover, ?_⟩⟩, hwidth⟩
  have hfits := hright.fits fun _ => 0
  rw [scope_right hst] at hfits
  rw [evaluate_eq_eval hover fun _ => 0, heval _ (hleft.fits _), hvalue hl,
    evaluate_eq_eval (scope_right hst ▸ hover) fun _ => 0, heval _ hfits]

theorem call {c c' : Call} (h : Call.Corresponds ((twin sized s₀ t₀).knows w l) c c') :
    (twin sized s₀ t₀).Reads w (exec (build c.run)) (exec (build c'.run))
      fun f g => (twin sized s₀ t₀).knows w l f g ∧ f.width = c.plain.width := by
  obtain rfl := (h.mono fun hf => hf.1).eq
  have hc := (h.mono fun hf => hf.2.1).children
  refine reads_build fun s t hst => ⟨_, rfl, rfl, ensures_call hst hc (fun hl => ?_) _⟩
  refine (h.mono fun {f g} hf => ?_).eval_eq
  obtain ⟨rfl, hleft, hvalue⟩ := hf
  obtain ⟨hright, hvalue⟩ := hvalue hl
  rw [evaluate_eq_eval hleft fun _ => 0, evaluate_eq_eval hright fun _ => 0] at hvalue
  exact ⟨rfl, hvalue⟩

theorem cancel (h : (twin sized s₀ t₀).knows w l f g) :
    (twin sized s₀ t₀).Reads w (exec (build (xor f f)))
      (exec (build (xor g g))) ((twin sized s₀ t₀).knows w false) := by
  obtain ⟨rfl, hf, -⟩ := h
  have hc : ∀ k ∈ (Call.arith .xor f f).plain.children,
      k.OverVariables w.1.scope := by
    simpa using hf
  refine reads_build fun s t hst => ⟨_, rfl, rfl,
    (ensures_call hst hc (fun _ => ?_) _).mono fun _ hr => hr.1⟩
  simp only [Call.plain, eval, ArithOp.apply, Word.xor_self]

/-! Reading. -/

theorem registerFormula (hreg : (twin sized s₀ t₀).arch.Has reg) :
    (twin sized s₀ t₀).Reads w (exec (Engine.registerFormula reg))
      (exec (Engine.registerFormula reg)) ((twin sized s₀ t₀).knows w true) := by
  refine reads_build fun s t hst => ?_
  have htwins := hst.2.2.twins
  have hhas : s.arch.Has reg := hst.2.2.code.archLeft ▸ hreg
  refine ⟨s.symbolic.registerFormula s.machine reg, rfl, ?_, ?_⟩
  · rw [htwins.registerFormula_eq hhas]
    rfl
  · obtain ⟨f, hf, hgives⟩ := htwins.left.registerFormula hhas s.modes.rules
    exact .of_answers hf ⟨rfl, scope_eq hst ▸ hgives.overVariables, nofun⟩

theorem mergeRegister (hreg : (twin sized s₀ t₀).arch.Has reg)
    (hf : (twin sized s₀ t₀).knows w l f g) :
    (twin sized s₀ t₀).Reads w (exec (Engine.mergeRegister reg f))
      (exec (Engine.mergeRegister reg g)) ((twin sized s₀ t₀).knows w true) := by
  obtain ⟨rfl, hf, -⟩ := hf
  refine reads_build fun s t hst => ?_
  have htwins := hst.2.2.twins
  have hhas : s.arch.Has reg := hst.2.2.code.archLeft ▸ hreg
  refine ⟨s.symbolic.mergeRegister s.arch s.machine reg f, rfl, ?_, ?_⟩
  · rw [htwins.mergeRegister_eq hhas]
    rfl
  · rw [← scope_eq hst] at hf
    exact (htwins.left.mergeRegister hf s.modes.rules).mono
      fun g hg => ⟨rfl, scope_eq hst ▸ hg, nofun⟩

theorem load :
    (twin sized s₀ t₀).Reads w (load access) (load access) ((twin sized s₀ t₀).knows w true) := by
  refine reads_build fun s t hst => ?_
  have htwins := hst.2.2.twins
  refine ⟨_, run_load htwins.left.noArray, ?_, ?_⟩
  · rw [run_load htwins.right.noArray, ← htwins.modes, ← htwins.memoryFormula_eq]
  · exact (htwins.left.memoryFormula_ensures s.modes.rules access).mono
      fun f hf => ⟨rfl, scope_eq hst ▸ hf, nofun⟩

/-! Writing. -/

/-- After a write to twins the world is that of the new frames. -/
theorem world_next (hst : (twin sized s₀ t₀).frames w s t) (hs : s.Keeps s') (ht : t.Keeps t')
    (htwins : s'.engine.Twins sized t'.engine) :
    (twin sized s₀ t₀).le w (s', t') ∧ (twin sized s₀ t₀).frames (s', t') s' t' :=
  ⟨⟨hst.1.engine.later.trans hs.later, hst.2.1.engine.later.trans ht.later⟩,
    ⟨.refl _, rfl⟩, ⟨.refl _, rfl⟩, hst.2.2.next hs ht htwins⟩

theorem newExpression_eq (h : (twin sized s₀ t₀).frames w s t) (f : Formula) (origin : Origin)
    (comment : String) : t.newExpression f origin comment = s.newExpression f origin comment := by
  simp only [Frame.newExpression, h.2.2.twins.size_eq, h.2.2.code.address]

/-- Recording the new expression of a write in both runs. -/
theorem recordNew_outcomes (hst : (twin sized s₀ t₀).frames w s t) {origin : Origin}
    {comment : String} {m m' : Machine}
    (htwins : (s.assigned f origin comment m).engine.Twins sized
      (t.assigned f origin comment m').engine) :
    Step.Outcomes (twin sized s₀ t₀).failed
      (fun i j s t => ∃ w', (twin sized s₀ t₀).le w w' ∧ (twin sized s₀ t₀).frames w' s t ∧ i = j)
      (recordNew s (s.assigned f origin comment m))
      (recordNew t (t.assigned f origin comment m')) := by
  obtain ⟨s', hs, hrun⟩ := run_recordNew s f origin comment m
  obtain ⟨t', ht, hrun'⟩ := run_recordNew t f origin comment m'
  have hsize := hst.2.2.twins.size_eq
  have hupdates := ht.updates
  rw [← hsize, ← hst.2.2.text] at hupdates
  have hnote := Expression.note_spec s.instruction.disassembly
  have htwins' : s'.engine.Twins sized t'.engine := by
    rw [hs.engine, ht.engine]
    exact htwins.update hs.updates hupdates hnote.1 hnote.2
  obtain ⟨hle, hframes⟩ := world_next hst hs.keeps ht.keeps htwins'
  rw [hrun, hrun']
  exact ⟨(s', t'), hle, hframes, hsize⟩

theorem writeRoot {root : Register} (comment : String) (hroot : (twin sized s₀ t₀).arch.Has root)
    (hf : (twin sized s₀ t₀).knows w l f g) :
    (twin sized s₀ t₀).Writes w (writeRoot root f comment) (writeRoot root g comment)
      fun _ i j => i = j := by
  obtain ⟨rfl, hf, -⟩ := hf
  intro s t hst
  rw [run_writeRoot, run_writeRoot]
  cases hcheck : checkOrigin f (.register root) with
  | error e => exact ⟨rfl, hst.2.2.ended⟩
  | ok _ =>
    obtain ⟨hisRoot, hwidth⟩ := checkOrigin_register hcheck
    refine recordNew_outcomes hst ?_
    rw [Frame.assigned, Frame.assigned, newExpression_eq hst, evaluate_self hst hf,
      evaluate_self' hst hf]
    exact hst.2.2.twins.writeRegister (hst.2.2.code.archLeft ▸ hroot) hisRoot
      (scope_eq hst ▸ hf) hwidth

theorem writeMemory (comment : String) (haccess : access.Suits s₀.arch sized)
    (hf : (twin sized s₀ t₀).knows w l f g) :
    (twin sized s₀ t₀).Writes w (writeMemory access f comment)
      (writeMemory access g comment) fun _ i j => i = j := by
  obtain ⟨rfl, hf, -⟩ := hf
  by_cases hbits : f.width = access.bits
  · intro s t hst
    rw [run_writeMemory hbits comment hst.2.2.twins.left.noArray,
      run_writeMemory hbits comment hst.2.2.twins.right.noArray]
    cases hcheck : checkOrigin f (.memory access) with
    | error e => exact ⟨rfl, hst.2.2.ended⟩
    | ok _ =>
      have hbytes := checkOrigin_memory hcheck
      refine recordNew_outcomes hst ?_
      rw [Frame.assigned, Frame.assigned, newExpression_eq hst, evaluate_self hst hf,
        evaluate_self' hst hf]
      refine hst.2.2.twins.writeMemory (fun hsized => haccess.size hsized hbytes.2)
        (scope_eq hst ▸ hf) ?_
      show f.width = access.bits / 8 * 8
      omega
  · unfold writeMemory
    rw [if_pos hbits]
    intro s t hst
    exact ⟨congrArg (Error.invalidOperand · _) hst.2.2.code.opcode, hst.2.2.ended⟩

theorem words : (twin sized s₀ t₀).Words where
  refl _ := ⟨.refl _, .refl _⟩
  trans h₁ h₂ := ⟨h₁.1.trans h₂.1, h₁.2.trans h₂.2⟩
  knows_mono hle h := by
    obtain ⟨heq, hleft, hvalue⟩ := h
    refine ⟨heq, ⟨hleft.wellFormed.mono hle.1.scope, hleft.memoryless⟩, fun hl => ?_⟩
    obtain ⟨hright, hvalue⟩ := hvalue hl
    refine ⟨⟨hright.wellFormed.mono hle.2.scope, hright.memoryless⟩, ?_⟩
    rw [hle.1.evaluate hleft, hle.2.evaluate hright, hvalue]
  raise hl h := ⟨h.1, h.2.1, fun hfalse => h.2.2 (Bool.eq_false_of_le_false (hfalse ▸ hl))⟩
  width_eq h := by rw [h.1]
  width_range _ := False.elim
  constant value width _ := constant value width
  call h := (call h).mono fun _ _ hr => ⟨hr.1, hr.2, False.elim⟩
  cancel := cancel
  failed h _ := h.2.2.ended

theorem slot_suits {address : Address} {bits : Nat}
    (h : sized → bits % 8 = 0 → bits / 8 ∈ alignedSizes) :
    ((Access.fixed address bits).withBase arch.stackPointer).Suits arch sized where
  base reg hreg := by
    obtain rfl : arch.stackPointer = reg := Option.some.inj hreg
    exact arch.stackPointer_has
  index := nofun
  size := h

theorem bits_size {op : Operand} (hop : op.Suits arch sized) (himm : op.immediate? = none)
    (hsized : sized) (hbits : op.bits % 8 = 0) : op.bits / 8 ∈ alignedSizes := by
  cases op with
  | immediate imm => cases himm
  | register reg => exact Architecture.Has.size hop hbits
  | memory access => exact hop.size hsized hbits

theorem unknownValue (hreg : s₀.arch.Has reg) :
    (twin sized s₀ t₀).Writes w (unknownValue reg) (unknownValue reg)
      fun w => (twin sized s₀ t₀).knows w true := by
  have hw : WordWidth reg.bits := by
    refine ⟨hreg.bits_pos, ?_⟩
    have hbound := hreg.bound
    have hlim := hreg.parentBits_le
    unfold limit
    omega
  intro s t hst
  obtain ⟨pool, hs⟩ := run_unknownValue hw s
  obtain ⟨pool', ht⟩ := run_unknownValue hw t
  have htwins := hst.2.2.twins.addVariable hw (some "undefined")
    (s.machine.register reg) (t.machine.register reg) pool pool'
  obtain ⟨hle, hframes⟩ := world_next hst (s.keeps_addVariable ..) (t.keeps_addVariable ..) htwins
  rw [hs, ht]
  refine ⟨_, hle, hframes, ?_, ⟨?_, trivial⟩, nofun⟩
  · rw [hst.2.2.twins.vars_size_eq]
  · exact ⟨hw, s.context.addVariable_scope _ _ _⟩

theorem reading : (twin sized s₀ t₀).Reading where
  toWords := words
  code h := h.2.2.code
  operands h h' := by rw [h.1.instruction, h'.1.instruction]
  final h := h.2.2.ended
  source_range _ := False.elim
  source_register hreg := hreg
  source_base hop hbase := hop.base _ hbase
  source_index hop hindex := hop.index _ hindex
  legible_register := trivial
  target_root hreg _ _ := hreg
  evaluate hst h := by
    obtain ⟨rfl, hleft, hvalue⟩ := h
    rw [evaluate_left hst hleft, evaluate_right hst hleft, (hvalue rfl).2]
  registerFormula hreg _ := registerFormula hreg
  load _ := load.mono fun _ _ h => ⟨h, False.elim⟩

/-! Taint, which is not compared. -/

theorem stamp {i j : Option Nat} (h : i = j) :
    (twin sized s₀ t₀).Reads w (stamp i b) (stamp j b') fun _ _ => True := by
  subst h
  cases i with
  | none => exact .pure trivial
  | some id =>
    intro s t hst
    show Step.Outcomes _ _
      (exec (Engine.modifySymbolic fun symbolic => symbolic.setTainted id b) s)
      (exec (Engine.modifySymbolic fun symbolic => symbolic.setTainted id b') t)
    rw [run_modifySymbolic, run_modifySymbolic]
    simp only [Symbolic.setTainted]
    have hsize := hst.2.2.twins.size_eq
    rcases s.symbolic.update_cases id fun x => { x with tainted := b } with
      ⟨hlt, symbolic, hrun, hs⟩ | ⟨hge, hrun⟩
    · rcases t.symbolic.update_cases id fun x => { x with tainted := b' } with
        ⟨-, symbolic', hrun', ht⟩ | ⟨hge', -⟩
      · rw [hrun, hrun']
        exact ⟨⟨hst.1.trans (.stamp hs), hst.2.1.trans (.stamp ht),
          hst.2.2.like (.stamp hs) (.stamp ht)⟩, trivial⟩
      · omega
    · rcases t.symbolic.update_cases id fun x => { x with tainted := b' } with
        ⟨hlt', -⟩ | ⟨-, hrun'⟩
      · omega
      · rw [hrun, hrun']
        exact ⟨rfl, hst.2.2.ended⟩

theorem setTaint (op : Operand) (b b' : Bool) :
    (twin sized s₀ t₀).Reads w (setTaint op b) (setTaint op b') fun _ _ => True := by
  have hlike : ∀ (s : Frame) (taint : Taint), s.Like { s with taint := taint } :=
    fun s taint => ⟨⟨rfl, rfl, rfl, rfl, rfl, rfl, rfl, rfl, rfl⟩, rfl⟩
  exact fun s t h => ⟨⟨h.1.trans (hlike _ _), h.2.1.trans (hlike _ _),
    h.2.2.like (hlike _ _) (hlike _ _)⟩, trivial⟩

theorem volatile (comment : String) (hf : (twin sized s₀ t₀).knows w l f g) :
    (twin sized s₀ t₀).Writes w (volatile f comment b) (volatile g comment b')
      (twin sized s₀ t₀).nothing := by
  obtain ⟨rfl, -, -⟩ := hf
  intro s t hst
  rw [run_volatile, run_volatile]
  refine (recordNew_outcomes hst ?_).bind fun i j s t hij => ?_
  · rw [Frame.assigned, Frame.assigned, newExpression_eq hst]
    exact hst.2.2.twins.enter _
  · obtain ⟨w', hle, hframes, hij⟩ := hij
    exact (stamp (congrArg some hij) s t hframes).imp fun _ _ _ _ h => ⟨w', hle, h.1, trivial⟩

theorem write (comment : String) (hdst : (twin sized s₀ t₀).target dst)
    (hf : (twin sized s₀ t₀).knows w l f g) :
    (twin sized s₀ t₀).Writes w (write dst f comment) (write dst g comment) fun _ i j => i = j := by
  cases dst with
  | immediate imm => exact reading.refuseWrites fun _ => rfl
  | register reg =>
    refine reading.archReads.then fun a b hab => ?_
    obtain ⟨rfl, rfl⟩ := hab
    by_cases hzero : (twin sized s₀ t₀).arch.isZeroRegister reg = true
    · rw [if_pos hzero, if_pos hzero]
      exact Writes.pure words rfl
    · rw [if_neg hzero, if_neg hzero]
      refine (mergeRegister hdst hf).then fun m m' hm => ?_
      refine (reading.register reg.parent).then fun root root' hroot => ?_
      obtain ⟨rfl, hroot⟩ := hroot
      exact words.bind
        (writeRoot comment (Architecture.has_of_register? hroot) hm)
        fun w' _ i j hij => Writes.pure words (congrArg some hij)
  | memory access =>
    exact words.bind (writeMemory comment hdst hf)
      fun w' _ i j hij => Writes.pure words (congrArg some hij)

theorem assign {x y : Step Bool} (comment : String) (hdst : (twin sized s₀ t₀).target dst)
    (hf : (twin sized s₀ t₀).knows w l f g)
    (hx : ∀ w, (twin sized s₀ t₀).Reads w x y fun _ _ => True)
    {post : Frame × Frame → Bool → Bool → Prop} (hpost : ∀ w b b', post w b b') :
    (twin sized s₀ t₀).Writes w (assign dst f comment x) (assign dst g comment y) post := by
  refine words.bind (write comment hdst hf) fun w' _ i j hij => ?_
  refine (hx w').then fun b b' _ => ?_
  exact (stamp hij).then fun _ _ _ => Writes.pure words (hpost w' b b')

theorem exchange {src : Operand} {f f' g g' : Formula} {c c' : Bool} (comment : String)
    (hdst : (twin sized s₀ t₀).target dst) (hsrc : (twin sized s₀ t₀).target src)
    (hf : (twin sized s₀ t₀).knows w l f f') (hg : (twin sized s₀ t₀).knows w m g g') :
    (twin sized s₀ t₀).Writes w (exchange dst src f g comment b c)
      (exchange dst src f' g' comment b' c') (twin sized s₀ t₀).nothing := by
  refine words.bind (write comment hdst hf) fun w₁ hle i j hij => ?_
  refine words.bind (write comment hsrc (words.knows_mono hle hg)) fun w₂ _ k n hkn => ?_
  refine (setTaint dst b b').then fun _ _ _ => ?_
  refine (setTaint src c c').then fun _ _ _ => ?_
  refine (stamp hij).then fun _ _ _ => ?_
  exact Reads.writes words (stamp hkn) fun _ _ h => h

theorem laws : (twin sized s₀ t₀).Laws where
  toReading := reading
  level_parent _ _ _ := rfl
  taint_false := trivial
  taint_or _ _ := trivial
  isOperand _ _ := trivial
  select {w l m n c c' f f' g g'} hc hf hg := by
    have hraise {l : Bool} {f f' : Formula} (h : (twin sized s₀ t₀).knows w l f f') :=
      words.raise (Bool.le_true l) h
    refine Reads.mono (words.call (.ite (hraise hc) (hraise hf) (hraise hg)))
      fun r r' h _ _ _ _ _ _ _ _ _ _ _ _ => ?_
    exact ⟨true, h.1, trivial⟩
  set comment hdst hf _ := assign comment hdst hf (fun _ => setTaint _ _ _) fun _ _ _ => trivial
  keep comment hdst _ hf :=
    assign comment hdst hf (fun _ => .look fun _ _ _ => trivial) fun _ _ _ => trivial
  restore comment hreg _ _ hf _ :=
    assign comment (show (twin sized s₀ t₀).target (.register _) from hreg) hf
      (fun _ => setTaint _ _ _) fun _ _ _ _ => rfl
  exchange comment hdst hsrc hf hg _ _ := exchange comment hdst hsrc hf hg
  volatile comment hf _ := volatile comment hf

theorem concretizes : (twin sized s₀ t₀).Reads w (isOn .concretizeUndefinedRegisters)
    (isOn .concretizeUndefinedRegisters) (· = ·) :=
  .look fun s t hst => by rw [hst.2.2.twins.modes]

theorem flat : (twin sized s₀ t₀).Flat := fun _ => trivial

/-- Where the two runs see one stack pointer, the stack can be used. -/
theorem stackOpen {op : X86.Op} (h : (twin sized s₀ t₀).Reads w
      (readRegister s₀.arch.stackPointer)
      (readRegister s₀.arch.stackPointer) ((twin sized s₀ t₀).knows w false)) :
    X86.StackOpen (twin sized s₀ t₀) w op := by
  refine .of_pointer laws h (fun _ _ _ => trivial) (fun _ => slot_suits fun _ _ => ?_)
    (fun _ _ hop himm => slot_suits (bits_size hop himm)) fun _ => False.elim
  show s₀.arch.addressWidth / 8 ∈ alignedSizes
  cases s₀.arch <;> decide

/-! Ends of instructions. -/

/-- Control arrives: the decisions of the two runs match. -/
theorem arrive (conditional : Bool) (hf : (twin sized s₀ t₀).knows w l f g)
    (hwidth : f.width = s₀.arch.programCounter.bits) :
    (twin sized s₀ t₀).Ends w (arrive f conditional) (arrive g conditional) := by
  obtain ⟨rfl, hf, -⟩ := hf
  have hle : f.width ≤ 64 := by
    have hpc := s₀.arch.programCounter_has
    have hbound := hpc.bound
    have hlim := hpc.parentBits_le
    omega
  intro s t hst
  have htwins := hst.2.2.twins
  have hended := hst.2.2.ended
  have hfs : f.OverVariables s.scope := scope_eq hst ▸ hf
  have hft : f.OverVariables t.scope := htwins.scope_eq ▸ hfs
  -- the value of the target is an address, in either run
  have haddress : ∀ e : Engine, e.Bounded → f.OverVariables e.scope →
      (e.evaluate f).toUInt64.toNat = e.context.evaluate f ∧
        (e.evaluate f).toUInt64.toNat < modulus f.width := by
    intro e hb he
    have hlt := (gives_evaluate he).lt hb
    rw [Engine.evaluate_eq he, toNat_toUInt64 hle hlt]
    exact ⟨rfl, hlt⟩
  obtain ⟨hsv, hslt⟩ := haddress s.engine htwins.left.bounded hfs
  obtain ⟨htv, htlt⟩ := haddress t.engine htwins.right.bounded hft
  obtain ⟨bs, hbs, hsout⟩ := answers_outcomes hfs s.modes.rules hle s.instruction.address hslt
  obtain ⟨bt, hbt, htout⟩ := answers_outcomes hft t.modes.rules hle t.instruction.address htlt
  obtain ⟨pool, hpush⟩ := run_arrival conditional hbs
  obtain ⟨pool', hpush'⟩ := run_arrival conditional hbt
  have hs' := s.engine.like_withPool pool
  have ht' := t.engine.like_withPool pool'
  rw [hpush, hpush', htwins.modes]
  split
  · exact ⟨⟨htwins, hended.leftListed, hended.rightListed, hended.arch, hended.modes, hended.left,
      hended.right, .inl ⟨hst.2.2.leftPath, hst.2.2.rightPath⟩⟩, rfl⟩
  · refine ⟨⟨(htwins.like hs' ht').decide _ _, hended.leftListed, hended.rightListed, hended.arch,
      hended.modes, hended.left.trans hs'.later, hended.right.trans ht'.later,
      .inr ⟨⟨bs⟩, ⟨bt⟩, ?_, ?_, fun b hb => ?_, ?_⟩⟩, rfl⟩
    · exact congrArg (Array.push · _) hst.2.2.leftPath
    · exact congrArg (Array.push · _) hst.2.2.rightPath
    · obtain ⟨⟨hover, -⟩, hdecides⟩ := hsout.decides b hb
      refine ⟨hover, ?_⟩
      · show (t.engine.withPool pool').context.evaluate b.constraint = 1 ↔ _
        have hfits := htwins.right.bounded.fits fun _ => 0
        rw [← htwins.scope_eq] at hfits
        rw [evaluate_eq_eval hft fun _ => 0] at htv
        rw [evaluate_congr ht'.vars,
          evaluate_eq_eval (htwins.scope_eq ▸ hover) fun _ => 0, hdecides _ hfits,
          htout.taken_iff _ htv.symm, ← htv, UInt64.toNat_inj, eq_comm]
    · rw [hst.2.2.place] at hsout
      exact (hsout.records htwins.left.bounded hfs hsv.symm).later hs'.later

theorem covers : (twin sized s₀ t₀).Covers where
  undefine hid := laws.ifUndefined concretizes (laws.forget unknownValue hid trivial)
  undefineUnless _ hid hf _ := laws.ifUndefined concretizes (laws.forgetUnless unknownValue hid hf
    (fun _ _ => True) (fun _ => .look fun _ _ _ => trivial) fun _ _ => trivial)
  advanceTo next s t hst := by
    obtain ⟨htwins, hlisted, hlisted', harch, hmodes, hleft, hright, -⟩ := hst.2.2.ended
    exact ⟨⟨htwins, hlisted, hlisted', harch, hmodes, hleft, hright,
      .inl ⟨hst.2.2.leftPath, hst.2.2.rightPath⟩⟩, rfl⟩
  arrive := arrive

end Twin

end Concolic
