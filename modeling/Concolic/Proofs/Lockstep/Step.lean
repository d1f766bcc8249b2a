import Concolic.Proofs.Change
import Concolic.Proofs.Simulation

/-
  The parts that instructions are made of run in lockstep.

  One lemma for each function of the construction of formulas, and for each
  verb of the processing of an instruction: from corresponding arguments, the
  two runs give corresponding results. The level of a result is the join of the
  levels of what it is made of.
-/

namespace Concolic

open Step Engine Architecture

variable {access : Access} {b b' : Bool} {f g : Formula} {id width i : Nat} {dst op : Operand}
  {reg : Register} {α β ι : Type} {fault : OperandFault} {l : List ι} {P : Operand → Prop}

/-! What the parts of an instruction leave as it is. -/

/-- Every run of the action, failed or not, keeps what `view` shows of the state. -/
def Retains {σ τ α : Type} (view : σ → τ) (x : EStateM Error σ α) : Prop :=
  ∀ s, view (match x s with | .ok _ s' => s' | .error _ s' => s') = view s

namespace Retains

variable {σ τ α β : Type} {view : σ → τ}

theorem pure (a : α) : Retains view (pure a) := fun _ => rfl

theorem bind {x : EStateM Error σ α} {k : α → EStateM Error σ β} (hx : Retains view x)
    (hk : ∀ a, Retains view (k a)) : Retains view (x >>= k) := by
  intro s
  have hs := hx s
  have hrun : (x >>= k) s = match x s with
      | .ok a s => k a s
      | .error e s => .error e s := by
    show EStateM.bind x k s = _
    unfold EStateM.bind
    cases x s <;> rfl
  rw [hrun]
  cases hxs : x s with
  | ok a s' =>
    rw [hxs] at hs
    exact (hk a s').trans hs
  | error e s' =>
    rw [hxs] at hs
    exact hs

theorem look {f : σ → α} {k : α → EStateM Error σ β} (hk : ∀ a, Retains view (k a)) :
    Retains view ((fun s => .ok (f s) s : EStateM Error σ α) >>= k) := bind (fun _ => rfl) hk

theorem ite {c : Prop} [Decidable c] {x y : EStateM Error σ α} (hx : Retains view x)
    (hy : Retains view y) : Retains view (if c then x else y) := by
  split
  · exact hx
  · exact hy

theorem foldlM {f : α → ι → EStateM Error σ α} (h : ∀ a i, Retains view (f a i)) (l : List ι)
    (a : α) : Retains view (l.foldlM f a) := by
  induction l generalizing a with
  | nil => exact pure a
  | cons i l ih =>
    exact (h a i).bind fun a' => ih a'

theorem forM {f : ι → EStateM Error σ PUnit} (h : ∀ i ∈ l, Retains view (f i)) :
    Retains view (l.forM f) := by
  induction l with
  | nil => exact pure _
  | cons i l ih => exact (h i (by simp)).bind fun _ => ih fun j hj => h j (by simp [hj])

end Retains

/-- What there is of an engine beside its formulas. -/
def Engine.solid (e : Engine) : Architecture × Modes × Machine × Taint :=
  (e.arch, e.modes, e.machine, e.taint)

theorem Exec.retains_build (x : Build α) : Retains solid (build x) := by
  intro e
  unfold build
  cases x e.modes.rules e.context <;> rfl

theorem Engine.retains_memoryArray : Retains solid memoryArray := by
  refine .look fun e => ?_
  split
  · exact .pure _
  · exact (Exec.retains_build _).bind fun array => Retains.bind (fun _ => rfl) fun _ => .pure _

theorem Engine.retains_arrayStore (index value : Formula) :
    Retains solid (arrayStore index value) := by
  refine retains_memoryArray.bind fun array => ?_
  refine Retains.bind (.foldlM (fun _ _ => Exec.retains_build _) _ _) fun array => ?_
  exact fun _ => rfl

/-- A view that shows nothing of the formulas of the engine. -/
def Frame.Coarse {τ : Type} (view : Frame → τ) : Prop :=
  ∀ {s s' : Frame}, s'.engine.solid = s.engine.solid → s'.instruction = s.instruction →
    view s' = view s

namespace Step

section

variable {τ : Type} {view : Frame → τ}

theorem retains_iff {x : Step α} : Retains view x ↔ ∀ s, view (after (x s)) = view s := by
  refine forall_congr' fun s => ?_
  cases x s <;> exact Iff.rfl

theorem retains_register (id : Nat) : Retains view (register id) := by
  refine Retains.look fun arch s => ?_
  cases arch.register id <;> rfl

variable (hview : Frame.Coarse view)

include hview

theorem retains_exec {x : Exec α} (h : Retains solid x) : Retains view (exec x) := by
  intro s
  have hs := h s.engine
  unfold exec
  cases hx : x s.engine <;> rw [hx] at hs <;> exact hview hs rfl

theorem retains_build (x : Build α) :
    Retains view (exec (Exec.build x)) := retains_exec hview (Exec.retains_build x)

theorem retains_create (f : Formula) (origin : Origin) (comment : String)
    (address : Option Address) : Retains view (exec (create f origin comment address)) := by
  refine retains_exec hview fun e => ?_
  rw [Engine.run_create]
  cases Symbolic.checkOrigin f origin <;> rfl

theorem retains_modifySymbolic (change : Symbolic → Except Error Symbolic) :
    Retains view (exec (modifySymbolic change)) := by
  refine retains_exec hview (.look fun e => ?_)
  refine Retains.bind (fun e' => ?_) fun symbolic => fun _ => rfl
  cases change e.symbolic <;> rfl

theorem retains_readRegister (reg : Register) : Retains view (readRegister reg) := by
  have hbuild (b : Engine → Build Formula) : Retains view (exec do
      let e ← get
      Exec.build (b e)) := retains_exec hview (.look fun _ => Exec.retains_build _)
  refine Retains.look fun arch => .ite (retains_build hview _) (.ite ?_ (hbuild _))
  exact Retains.look fun inst => retains_build hview _

theorem retains_effectiveAddress (access : Access) : Retains view (effectiveAddress access) := by
  have hpart (reg : Register) : Retains view (addressPart reg) :=
    (retains_readRegister hview reg).bind fun f =>
      Retains.look fun _ => retains_build hview _
  refine Retains.look fun arch => (retains_build hview _).bind fun d => ?_
  refine Retains.bind ?_ fun start => ?_
  · unfold addressStart
    split
    · exact (hpart _).bind fun base => retains_build hview _
    · exact .pure d
  · split
    · refine Retains.bind ?_ fun scaled => retains_build hview _
      refine (hpart _).bind fun index => .ite (.pure index) ?_
      refine Retains.look fun arch => (retains_build hview _).bind fun factor => ?_
      exact retains_build hview _
    · exact .pure start

theorem retains_arrayIndex (access : Access) (mode : Mode) :
    Retains view (arrayIndex access mode) := by
  refine Retains.look fun on => .ite (retains_effectiveAddress hview _) ?_
  exact Retains.look fun arch => retains_build hview _

end

end Step

/-- What the taint of operands rests on, and the operands. -/
structure Frame.Setting where
  arch : Architecture
  modes : Modes
  taint : Taint
  operands : List Operand

def Frame.setting (s : Frame) : Setting where
  arch := s.arch
  modes := s.modes
  taint := s.taint
  operands := s.instruction.operands

theorem Frame.coarse_setting : Coarse setting := by
  intro s s' hsolid hinst
  unfold setting
  simp only [solid, Prod.mk.injEq] at hsolid
  rw [hsolid.1, hsolid.2.1, hsolid.2.2.2, hinst]

namespace Step

open Concolic.Frame (setting coarse_setting)

theorem retains_record (id : Nat) : Retains setting (record id) := by
  refine Retains.look fun inst => ?_
  refine .ite ?_ fun _ => rfl
  exact (retains_modifySymbolic coarse_setting _).bind fun _ => fun _ => rfl

/-- A write changes no taint. -/
theorem retains_write (dst : Operand) (f : Formula) (comment : String) :
    Retains setting (write dst f comment) := by
  cases dst with
  | immediate imm => exact Retains.bind (fun _ => rfl) fun _ _ => rfl
  | register reg =>
    have hmerge : Retains setting (exec (mergeRegister reg f)) :=
      retains_exec coarse_setting (.look fun _ => Exec.retains_build _)
    refine Retains.look fun arch => .ite (.pure none) (hmerge.bind fun merged => ?_)
    refine (retains_register _).bind fun root => Retains.bind ?_ fun id => .pure _
    refine Retains.look fun inst =>
      (retains_create coarse_setting _ _ _ _).bind fun id => ?_
    refine Retains.look fun value => Retains.bind (fun _ => rfl) fun _ => ?_
    exact (retains_record id).bind fun _ => .pure id
  | memory access =>
    refine Retains.bind ?_ fun id => .pure _
    refine .ite (Retains.bind (fun _ => rfl) fun _ _ => rfl) ?_
    refine Retains.look fun inst =>
      (retains_create coarse_setting _ _ _ _).bind fun id => ?_
    refine Retains.look fun value => Retains.bind (fun _ => rfl) fun _ => ?_
    have hlast := (retains_record id).bind fun _ => .pure id
    refine Retains.look fun array => .ite ?_ hlast
    refine (retains_arrayIndex coarse_setting _ _).bind fun index => ?_
    exact (retains_exec coarse_setting (retains_arrayStore _ _)).bind fun _ => hlast

/-- The taint of a destination can be determined before it is written. -/
theorem assign_eq {comment : String} {x : Step Bool} {tag : Frame.Setting → Bool}
    (hx : ∀ s, x s = setTaint dst (tag s.setting) s) (s : Frame) :
    assign dst f comment x s = assign dst f comment (setTaint dst (tag s.setting)) s := by
  have hwrite := retains_write dst f comment s
  unfold assign
  rw [run_bind, run_bind]
  cases hw : write dst f comment s with
  | error e s' => rfl
  | ok id s' =>
    rw [hw] at hwrite
    simp only [run_bind]
    rw [hx s', hwrite]

end Step

namespace Simulation

variable {S : Simulation} {w : S.World} {post : S.World → α → β → Prop} {x y : Step Unit}

/-! Constructions of formulas. -/

/-- `Reads` of a construction. -/
def Builds {α β : Type} (S : Simulation) (w : S.World) (x : Build α) (y : Build β)
    (post : α → β → Prop) : Prop :=
  S.Reads w (exec (Exec.build x)) (exec (Exec.build y)) post

theorem exec_bind (x : Build α) (k : α → Build β) :
    exec (Exec.build (x >>= k)) = exec (Exec.build x) >>= fun a => exec (Exec.build (k a)) := by
  funext s
  rw [run_bind]
  simp only [exec, Exec.build, Build.run_bind]
  cases x s.modes.rules s.context <;> rfl

namespace Builds

variable {α β γ δ : Type} {x : Build α} {y : Build β} {post : α → β → Prop}

theorem pure {a : α} {b : β} (h : post a b) :
    S.Builds w (pure a) (pure b) post := fun _ _ hst => ⟨hst, h⟩

theorem bind {k : α → Build γ} {k' : β → Build δ} {post' : γ → δ → Prop} (hx : S.Builds w x y post)
    (hk : ∀ a b, post a b → S.Builds w (k a) (k' b) post') :
    S.Builds w (x >>= k) (y >>= k') post' := by
  unfold Builds
  rw [exec_bind, exec_bind]
  exact Reads.bind hx hk

theorem fail (W : S.Words) {e : Error} (he : S.sure → e.isFatal = false) :
    S.Builds w (throw e) (throw e) post :=
  fun _ _ hst => ⟨rfl, W.failed hst he⟩

theorem ite {c : Prop} [Decidable c] {x' : Build α} {y' : Build β}
    (h₁ : c → S.Builds w x y post) (h₂ : ¬ c → S.Builds w x' y' post) :
    S.Builds w (if c then x else x') (if c then y else y') post :=
  both_ite (S.Builds w · · post) h₁ h₂

theorem sideBySide (W : S.Words) :
    SideBySide fun {α β : Type} (x : Build α) (y : Build β) post => S.Builds w x y post :=
  ⟨pure, fun he => fail W fun _ => he, bind⟩

end Builds

namespace Words

variable (W : S.Words) {l : Bool}

include W

theorem word (l : Bool) (value : Nat) (hw : S.sure → Formula.WordWidth width) :
    S.Builds w (Build.constant value width) (Build.constant value width) (S.knows w l) :=
  (W.constant value width hw).mono fun _ _ h => W.raise (Bool.false_le l) h.1

theorem flag (l value : Bool) : S.Builds w (Build.flag value) (Build.flag value) (S.knows w l) :=
  W.word l _ fun _ => by decide

theorem zero (l : Bool) (hw : S.sure → Formula.WordWidth width) :
    S.Builds w (Build.zero width) (Build.zero width) (S.knows w l) := W.word l _ hw

theorem construct {c c' : Call} (h : Call.Corresponds (S.knows w l) c c') :
    S.Builds w c.run c'.run (S.knows w l) := (W.call h).mono fun _ _ hr => hr.1

section

variable {f f' g g' h h' : Formula}

theorem arith (op : ArithOp) (hf : S.knows w l f f') (hg : S.knows w l g g') :
    S.Builds w (Build.arith op f g) (Build.arith op f' g') (S.knows w l) := W.construct (.arith hf hg)

theorem compare (op : CompareOp) (hf : S.knows w l f f') (hg : S.knows w l g g') :
    S.Builds w (Build.compare op f g) (Build.compare op f' g') (S.knows w l) :=
  W.construct (.compare hf hg)

theorem unary (op : UnaryOp) (hf : S.knows w l f f') :
    S.Builds w (Build.unary op f) (Build.unary op f') (S.knows w l) := W.construct (.unary hf)

theorem extract (high low : Nat) (hf : S.knows w l f f') :
    S.Builds w (Build.extract high low f) (Build.extract high low f') (S.knows w l) :=
  W.construct (.extract hf)

theorem concat (hf : S.knows w l f f') (hg : S.knows w l g g') :
    S.Builds w (Build.concat f g) (Build.concat f' g') (S.knows w l) := W.construct (.concat hf hg)

theorem zeroExtend (width : Nat) (hf : S.knows w l f f') :
    S.Builds w (Build.zeroExtend width f) (Build.zeroExtend width f') (S.knows w l) :=
  W.construct (.zeroExtend hf)

theorem signExtend (width : Nat) (hf : S.knows w l f f') :
    S.Builds w (Build.signExtend width f) (Build.signExtend width f') (S.knows w l) :=
  W.construct (.signExtend hf)

theorem ite (hf : S.knows w l f f') (hg : S.knows w l g g') (hh : S.knows w l h h') :
    S.Builds w (Build.ite f g h) (Build.ite f' g' h') (S.knows w l) := W.construct (.ite hf hg hh)

theorem resize (width : Nat) (hf : S.knows w l f f') :
    S.Builds w (Build.resize f width) (Build.resize f' width) (S.knows w l) := by
  unfold Build.resize Build.truncate
  rw [W.width_eq hf]
  refine .ite (fun _ => W.zeroExtend width hf) fun _ => .ite (fun _ => ?_) fun _ => .pure hf
  exact W.extract _ _ hf

theorem resize_width (width : Nat) (hf : S.knows w l f f') :
    S.Builds w (Build.resize f width) (Build.resize f' width)
      fun r _ => 0 < width → r.width = width := by
  unfold Build.resize Build.truncate
  rw [W.width_eq hf]
  refine .ite (fun _ => ?_) fun hge => .ite (fun _ => ?_) fun hle => .pure fun _ => ?_
  · exact (W.call (.zeroExtend hf)).mono fun _ _ hr _ => hr.2.1
  · refine (W.call (.extract hf)).mono fun _ _ hr hpos => hr.2.1.trans ?_
    simp only [Call.plain, Formula.width, Build.topIndex, if_neg (pos_iff_ne_zero.1 hpos)]
    omega
  · rw [W.width_eq hf]
    omega

theorem concatMany {fs gs : List Formula} (hl : List.Forall₂ (S.knows w l) fs gs) :
    S.Builds w (Build.concatMany fs) (Build.concatMany gs) (S.knows w l) :=
  (Builds.sideBySide W).concatMany W.concat hl

/-! Flags. -/

theorem minus {a b : Nat} (h : S.sure → b ≤ a) :
    S.Builds w (Build.minus a b) (Build.minus a b) (· = ·) := by
  exact .ite (fun _ => .pure rfl) fun hlt => .fail W fun hs => absurd (h hs) hlt

theorem sign (hf : S.knows w l f f') : S.Builds w (Flags.sign f) (Flags.sign f') (S.knows w l) := by
  unfold Flags.sign
  rw [← W.width_eq hf]
  refine (W.minus fun hs => (W.width_range hf hs).1).bind fun top top' htop => ?_
  subst htop
  exact W.extract _ _ hf

theorem isZero (hf : S.knows w l f f') :
    S.Builds w (Flags.isZero f) (Flags.isZero f') (S.knows w l) := by
  unfold Flags.isZero
  rw [← W.width_eq hf]
  exact (W.zero l (W.width_range hf)).bind fun z z' hz => W.compare .eq hf hz

theorem isZero_width (hf : S.knows w l f f') :
    S.Builds w (Flags.isZero f) (Flags.isZero f') fun r _ => r.width = 1 := by
  unfold Flags.isZero
  rw [← W.width_eq hf]
  exact (W.zero l (W.width_range hf)).bind fun z z' hz =>
    (W.call (.compare hf hz)).mono fun _ _ hr => hr.2.1

end

section

variable {differ differ' a a' b b' r r' : Formula}

variable (kind : Flags.Kind) (hd : S.knows w l differ differ') (ha : S.knows w l a a')
  (hb : S.knows w l b b') (hr : S.knows w l r r')

include hd ha hb hr

theorem carry : S.Builds w (Flags.carry kind differ a b r) (Flags.carry kind differ' a' b' r')
    (S.knows w l) := by
  cases kind with
  | sum =>
    refine (W.arith .and ha hb).bind fun both both' hboth => ?_
    refine (W.arith .xor hd hr).bind fun changed changed' hchanged => ?_
    refine (W.arith .and hchanged hd).bind fun passed passed' hpassed => ?_
    refine (W.arith .xor hboth hpassed).bind fun out out' hout => ?_
    exact W.sign hout
  | difference =>
    refine (W.arith .xor hd hr).bind fun changed changed' hchanged => ?_
    refine (W.arith .xor ha hr).bind fun moved moved' hmoved => ?_
    refine (W.arith .and hmoved hd).bind fun passed passed' hpassed => ?_
    refine (W.arith .xor hchanged hpassed).bind fun out out' hout => ?_
    exact W.sign hout

theorem overflow : S.Builds w (Flags.overflow kind differ a b r)
    (Flags.overflow kind differ' a' b' r') (S.knows w l) := by
  cases kind with
  | sum =>
    refine (W.unary .not hb).bind fun inverse inverse' hinverse => ?_
    refine (W.arith .xor ha hinverse).bind fun alike alike' halike => ?_
    refine (W.arith .xor ha hr).bind fun moved moved' hmoved => ?_
    refine (W.arith .and halike hmoved).bind fun out out' hout => ?_
    exact W.sign hout
  | difference =>
    refine (W.arith .xor ha hr).bind fun moved moved' hmoved => ?_
    refine (W.arith .and hd hmoved).bind fun out out' hout => ?_
    exact W.sign hout

end

end Words

/-! What the runs have in common. -/

/-- One operand, which may be named, at a place of the instruction. -/
structure SameOperand (S : Simulation) (w : S.World) (i : Nat) (op op' : Operand) : Prop where
  eq : op = op'
  source : S.source op
  place : ∃ s t, S.frames w s t ∧ s.instruction.operands[i]? = some op

/-- The operand at a place of the instruction, if there is one, satisfies `P`. -/
def At (S : Simulation) (w : S.World) (i : Nat) (P : Operand → Prop) : Prop :=
  ∀ s t op, S.frames w s t → s.instruction.operands[i]? = some op → P op

/-- What holds of the operand in all frames of a world can be shown in any. -/
theorem At.of_frames (h : ∀ s t, S.frames w s t → S.At w i P) : S.At w i P :=
  fun s t op hst hop => h s t hst s t op hst hop

theorem SameOperand.at {op op' : Operand} (h : S.SameOperand w i op op') (hP : S.At w i P) :
    P op := by
  obtain ⟨s, t, hst, hop⟩ := h.place
  exact hP s t op hst hop

/-- What holds of every operand that may be named holds of the one at a place. -/
theorem At.of_source (L : S.Laws) (h : ∀ {op}, S.source op → P op) (i : Nat) : S.At w i P :=
  fun _ _ op hst hop => h ((L.code hst).sources op (List.mem_of_getElem? hop))

/-- The operand at a place of the instruction may be read. -/
def Legible (S : Simulation) (w : S.World) (i : Nat) : Prop := S.At w i (S.legible w)

/-- The register of a number, if the architecture has it, may be written. -/
def TargetId (S : Simulation) (id : Nat) : Prop :=
  ∀ reg, S.arch.register? id = some reg → S.target (.register reg)

/-- The architecture has a root of the number, and no other use for it. -/
def HasRoot (S : Simulation) (id : Nat) : Prop :=
  ∃ reg, S.arch.register? id = some reg ∧ reg.isRoot = true ∧
    S.arch.isZeroRegister reg = false ∧ S.arch.isProgramCounter reg = false

/-- Whether one of several registers may have two values. -/
def levelAny (S : Simulation) (w : S.World) (ids : List Nat) : Bool := ids.any (S.levelOf w)

theorem levelOf_le {ids : List Nat} (h : id ∈ ids) : S.levelOf w id ≤ S.levelAny w ids := by
  unfold levelAny
  cases hid : S.levelOf w id with
  | false => exact Bool.false_le _
  | true => rw [List.any_eq_true.2 ⟨id, h, hid⟩]

/-- Corresponding formulas of one level, with taints that cover it. -/
def Tagged (S : Simulation) (w : S.World) (p p' : Formula × Bool) : Prop :=
  ∃ l, S.knows w l p.1 p'.1 ∧ S.taint l p.2 p'.2

theorem Tagged.knows_true (W : S.Words) {p p' : Formula × Bool} (h : S.Tagged w p p') :
    S.knows w true p.1 p'.1 := by
  obtain ⟨l, hf, -⟩ := h
  exact W.raise (Bool.le_true l) hf

namespace Reading

variable (R : S.Reading)

include R

/-! The instruction and the frame. -/

theorem archReads : S.BothRead w Step.arch fun a b => a = S.arch ∧ b = S.arch :=
  .look fun _ _ h => ⟨(R.code h).archLeft, (R.code h).archRight⟩

theorem fallThrough : S.BothRead w fallThrough (· = ·) := by
  refine .look fun s t h => ?_
  simp only [Instruction.fallThrough, (R.code h).address, (R.code h).length]

theorem operandCount : S.BothRead w operandCount fun m n =>
    m = n ∧ ∃ s t, S.frames w s t ∧ s.instruction.operands.length = m :=
  .look fun s t h =>
    ⟨congrArg List.length (R.code h).operands, s, t, h, rfl⟩

theorem refuse (h : S.sure → (Error.invalidOperand 0 fault).isFatal = false) {post : α → β → Prop} :
    S.Reads w (refuse fault) (refuse fault) post := by
  intro s t hst
  refine ⟨congrArg (Error.invalidOperand · fault) (R.code hst).opcode, R.failed hst fun hs => ?_⟩
  rw [← h hs]
  cases fault <;> rfl

theorem refuseWrites (h : S.sure → (Error.invalidOperand 0 fault).isFatal = false) :
    S.Writes w (Step.refuse fault) (Step.refuse fault) post :=
  Reads.writes R.toWords (R.refuse h) fun _ _ (h : False) => h.elim

theorem signedSum {a b : Int}
    (h : S.sure → Int64.minValue.toInt ≤ a + b ∧ a + b ≤ Int64.maxValue.toInt) :
    S.BothRead w (signedSum a b) (· = ·) := by
  exact .ite (fun _ => .pure rfl) fun hout => R.refuse fun hs => absurd (h hs) hout

theorem shiftLeft (value : Nat) {amount : Nat} (h : S.sure → amount < Word.limit) :
    S.BothRead w (shiftLeft value amount) (· = ·) := by
  exact .ite (fun _ => .pure rfl) fun hlt => R.refuse fun hs => absurd (h hs) hlt

theorem operand? (i : Nat) : S.BothRead w (operand? i) (Option.Rel (S.SameOperand w i)) := by
  refine .look fun s t h => ?_
  have hcode := R.code h
  rw [← hcode.operands]
  cases hop : s.instruction.operands[i]? with
  | none => exact .none
  | some op => exact .some ⟨rfl, hcode.sources op (List.mem_of_getElem? hop), s, t, h, hop⟩

theorem operand (i : Nat) : S.BothRead w (operand i) (S.SameOperand w i) := by
  refine (R.operand? i).bind fun op op' hop => ?_
  cases hop with
  | none => exact R.refuse fun _ => rfl
  | some hop => exact .pure hop

/-- The operand is one in both runs. -/
theorem writesOperand (i : Nat) {k : Operand → Step α} {k' : Operand → Step β}
    (hk : ∀ op, S.SameOperand w i op op → S.Writes w (k op) (k' op) post) :
    S.Writes w (Step.operand i >>= k) (Step.operand i >>= k') post := by
  refine (R.operand i).then fun op op' hop => ?_
  obtain rfl := hop.eq
  exact hk op hop

theorem endsOperand (i : Nat) {k k' : Operand → Step α}
    (hk : ∀ op, S.SameOperand w i op op → S.Ends w (k op) (k' op)) :
    S.Ends w (Step.operand i >>= k) (Step.operand i >>= k') := by
  refine Ends.after (R.operand i) fun op op' hop => ?_
  obtain rfl := hop.eq
  exact hk op hop

theorem register (id : Nat) : S.BothRead w (register id) fun reg reg' =>
    reg = reg' ∧ S.arch.register? id = some reg := by
  refine R.archReads.bind fun a b hab => ?_
  obtain ⟨rfl, rfl⟩ := hab
  unfold Architecture.register
  cases hreg : S.arch.register? id with
  | none => exact .fail R.toWords fun _ => rfl
  | some reg => exact .pure ⟨rfl, rfl⟩

end Reading

namespace Laws

variable (L : S.Laws) {l : Bool}

include L

/-! Taint. -/

theorem isTainted (op : Operand) : S.BothRead w (Step.isTainted op) (S.taint (S.level w op)) :=
  .look fun _ _ h => L.isOperand h op

omit L in
theorem levelOf_eq (h : S.arch.register? id = some reg) :
    S.levelOf w id = S.level w (.register reg) := by
  unfold levelOf
  rw [h]
  rfl

theorem isRegisterTainted (id : Nat) :
    S.BothRead w (isRegisterTainted id) (S.taint (S.levelOf w id)) := by
  refine (L.register id).bind fun reg reg' hreg => ?_
  obtain ⟨rfl, hreg⟩ := hreg
  rw [levelOf_eq hreg]
  exact .look fun _ _ h => L.isOperand h (.register reg)

theorem anyRegisterTainted (ids : List Nat) :
    S.BothRead w (anyRegisterTainted ids) (S.taint (S.levelAny w ids)) := by
  have hany : ∀ ids : List Nat, S.BothRead w (ids.mapM Step.isRegisterTainted) fun bs bs' =>
        S.taint (S.levelAny w ids) (bs.any id) (bs'.any id) := by
    intro ids
    induction ids with
    | nil =>
      exact .pure L.taint_false
    | cons i ids ih =>
      simp only [List.mapM_cons]
      refine (L.isRegisterTainted i).bind fun b b' hb => ?_
      exact ih.bind fun bs bs' hbs => .pure (L.taint_or hb hbs)
  exact (hany ids).bind fun _ _ h => .pure h

theorem addressTaint {s t : Frame} (hst : S.frames w s t) (access : Access) :
    S.taint (S.addressLevel w access)
      (s.taint.isOptional access.base || s.taint.isOptional access.index)
      (t.taint.isOptional access.base || t.taint.isOptional access.index) := by
  have hreg : ∀ reg, S.taint (S.levelOptional w reg) (s.taint.isOptional reg)
      (t.taint.isOptional reg) := by
    intro reg
    cases reg with
    | none => exact L.taint_false
    | some reg => exact L.isOperand hst (.register reg)
  exact L.taint_or (hreg _) (hreg _)

/-! Reading. -/

theorem evaluated (h : S.knows w false f g) : S.Reads w (evaluate f) (evaluate g) (· = ·) :=
  .look fun _ _ hst => L.evaluate hst h

theorem readRegister (hreg : S.source (.register reg)) :
    S.BothRead w (readRegister reg) (S.knows w (S.level w (.register reg))) := by
  refine L.archReads.bind fun a b hab => ?_
  obtain ⟨rfl, rfl⟩ := hab
  refine .ite (fun _ => L.zero _ (L.source_range hreg)) fun hzero => .ite (fun _ => ?_)
    fun _ => L.registerFormula hreg (Bool.eq_false_iff.2 hzero)
  have hcounter : S.BothRead w instruction fun i j =>
      counterValue S.arch i = counterValue S.arch j := by
    refine .look fun s t h => ?_
    have hcode := L.code h
    simp only [counterValue, Instruction.fallThrough, hcode.address, hcode.length]
  refine hcounter.bind fun i j hij => ?_
  rw [hij]
  exact L.word _ _ (L.source_range hreg)

theorem readRegisterId (id : Nat) :
    S.BothRead w (readRegisterId id) (S.knows w (S.levelOf w id)) := by
  refine (L.register id).bind fun reg reg' hreg => ?_
  obtain ⟨rfl, hreg⟩ := hreg
  rw [levelOf_eq hreg]
  exact L.readRegister (L.source_register (has_of_register? hreg))

theorem readAmong (ids : List Nat) (h : id ∈ ids) :
    S.BothRead w (Step.readRegisterId id) (S.knows w (S.levelAny w ids)) :=
  (L.readRegisterId id).mono fun _ _ hf => L.raise (levelOf_le h) hf

theorem addressPart (hreg : S.source (.register reg)) :
    S.BothRead w (addressPart reg) (S.knows w (S.level w (.register reg))) := by
  refine (L.readRegister hreg).bind fun f f' hf => ?_
  refine L.archReads.bind fun a b hab => ?_
  obtain ⟨rfl, rfl⟩ := hab
  exact L.resize _ hf

theorem addressStart {d d' : Formula} (h : S.source (.memory access)) (hd : S.knows w false d d') :
    S.Reads w (addressStart access d) (addressStart access d')
      (S.knows w (S.levelOptional w access.base)) := by
  unfold Step.addressStart
  cases hbase : access.base with
  | none => exact .pure hd
  | some reg =>
    refine (L.addressPart (L.source_base h hbase)).bind fun f f' hf => ?_
    exact L.arith .add hf (L.raise (Bool.false_le _) hd)

theorem scaledIndex (h : S.source (.memory access)) (hindex : access.index = some reg)
    (scale : Nat) :
    S.BothRead w (scaledIndex reg scale) (S.knows w (S.levelOptional w access.index)) := by
  rw [hindex]
  refine (L.addressPart (L.source_index h hindex)).bind fun g g' hg => ?_
  refine .ite (fun _ => .pure hg) fun _ => ?_
  refine L.archReads.bind fun a b hab => ?_
  obtain ⟨rfl, rfl⟩ := hab
  exact Reads.bind (L.word _ _ fun _ => S.arch.addressWidth_range) fun k k' hk =>
    L.arith .mul hg hk

theorem effectiveAddress (h : S.source (.memory access)) :
    S.BothRead w (effectiveAddress access) (S.knows w (S.addressLevel w access)) := by
  refine L.archReads.bind fun a b hab => ?_
  obtain ⟨rfl, rfl⟩ := hab
  refine Reads.bind (L.constant _ _ fun _ => S.arch.addressWidth_range) fun d d' hd => ?_
  refine (L.addressStart h hd.1).bind fun f f' hf => ?_
  have hf := L.raise (Bool.left_le_or _ (S.levelOptional w access.index)) hf
  cases hindex : access.index with
  | none => exact .pure hf
  | some reg =>
    refine (L.scaledIndex h hindex access.scale).bind fun g g' hg => ?_
    exact L.arith .add hf (L.raise (Bool.right_le_or _ _) hg)

/-- An address is computed in both runs or in none. -/
theorem computedAddress (hop : S.source op) :
    S.BothRead w (computedAddress op) fun a b => a.isSome = b.isSome := by
  cases op with
  | memory access =>
    refine .ite (fun _ => .ite (fun _ => L.refuse fun _ => rfl) fun _ => ?_) fun _ => .pure rfl
    refine (L.effectiveAddress hop).bind fun f g hf => ?_
    have hlook : S.Reads w (evaluate f) (evaluate g) fun _ _ => True := .look fun _ _ _ => trivial
    exact hlook.bind fun _ _ _ => .pure rfl
  | register reg => exact .pure rfl
  | immediate imm => exact .pure rfl

/-- Where the registers of an address have one value in both runs, so has the
address. -/
theorem computedAddress_eq (hop : S.source op)
    (hlevel : ∀ access, op = .memory access → S.addressLevel w access = false) :
    S.BothRead w (Step.computedAddress op) (· = ·) := by
  cases op with
  | memory access =>
    refine .ite (fun _ => .ite (fun _ => L.refuse fun _ => rfl) fun _ => ?_) fun _ => .pure rfl
    refine (L.effectiveAddress hop).bind fun f g hf => ?_
    rw [hlevel access rfl] at hf
    refine (L.evaluated hf).bind fun n n' hn => ?_
    subst hn
    exact .pure rfl
  | register reg => exact .pure rfl
  | immediate imm => exact .pure rfl

theorem read (hop : S.source op) (hlegible : S.legible w op) :
    S.BothRead w (read op) (S.knows w (S.level w op)) := by
  cases op with
  | immediate imm => exact L.word _ _ (L.source_range hop)
  | register reg => exact L.readRegister hop
  | memory access => exact (L.load hlegible).mono fun _ _ h => h.1

/-- What is read from memory has a byte at least. -/
theorem read_bytes (hop : S.source op) (hlegible : S.legible w op) :
    S.BothRead w (Step.read op)
      fun _ _ => S.sure → ∀ access, op = .memory access → 1 ≤ access.bytes := by
  cases op with
  | memory access =>
    refine (L.load hlegible).mono fun _ _ h hs other hother => ?_
    cases hother
    exact h.2 hs
  | _ => exact (L.read hop hlegible).mono fun _ _ _ _ _ h => by cases h

theorem readSized (hw : S.sure → Formula.WordWidth width) (hop : S.source op)
    (hlegible : S.legible w op) : S.BothRead w (readSized op width) (S.knows w (S.level w op)) := by
  cases op with
  | immediate imm => exact L.word _ _ hw
  | register reg => exact .ite (fun _ => L.refuse fun _ => rfl) fun _ => L.read hop hlegible
  | memory access => exact .ite (fun _ => L.refuse fun _ => rfl) fun _ => L.read hop hlegible

/-! Writing. -/

/-- A destination takes a formula, and a taint that is determined by what the taints
were before. -/
theorem assign {x y : Step Bool} (comment : String) (tag tag' : Frame.Setting → Bool)
    (hx : ∀ s, x s = setTaint dst (tag s.setting) s)
    (hy : ∀ t, y t = setTaint dst (tag' t.setting) t) (hdst : S.target dst) (hf : S.knows w l f g)
    (htag : ∀ s t, S.frames w s t → S.taint l (tag s.setting) (tag' t.setting)) :
    S.Writes w (assign dst f comment x) (assign dst g comment y) fun _ => S.taint l := by
  intro s t hst
  rw [assign_eq hx, assign_eq hy]
  exact L.set comment hdst hf (htag s t hst) s t hst

omit L in
theorem dropAnswer (W : S.Words) {x y : Step α} {post : S.World → α → α → Prop}
    (h : S.Writes w x y post) : S.Writes w (discard x) (discard y) S.nothing :=
  W.bind h fun _ _ _ _ _ => Writes.pure W trivial

theorem put (comment : String) (hdst : S.target dst) (hf : S.knows w l f g) (hb : S.taint l b b') :
    S.Writes w (discard (Step.assign dst f comment (Step.setTaint dst b)))
      (discard (Step.assign dst g comment (Step.setTaint dst b'))) S.nothing :=
  dropAnswer L.toWords (L.set comment hdst hf hb)

theorem move {dst src : Operand} (comment : String) (hdst : S.target dst)
    (hf : S.knows w (S.level w src) f g) :
    S.Writes w (discard (Step.assign dst f comment (Step.assignTaint dst src)))
      (discard (Step.assign dst g comment (Step.assignTaint dst src))) S.nothing :=
  dropAnswer L.toWords (L.assign comment
    (fun p => p.taint.isOperand (p.modes.isOn .taintThroughPointers) src)
    (fun p => p.taint.isOperand (p.modes.isOn .taintThroughPointers) src)
    (fun _ => rfl) (fun _ => rfl) hdst hf fun _ _ hst => L.isOperand hst src)

theorem unite {dst src₁ src₂ : Operand} (comment : String) (hdst : S.target dst)
    (hf : S.knows w (S.level w src₁ || S.level w src₂) f g) :
    S.Writes w (Step.assign dst f comment (Step.unionTaint dst src₁ src₂))
      (Step.assign dst g comment (Step.unionTaint dst src₁ src₂))
      fun _ => S.taint (S.level w src₁ || S.level w src₂) :=
  L.assign comment
    (fun p => p.taint.isOperand (p.modes.isOn .taintThroughPointers) src₁ ||
      p.taint.isOperand (p.modes.isOn .taintThroughPointers) src₂)
    (fun p => p.taint.isOperand (p.modes.isOn .taintThroughPointers) src₁ ||
      p.taint.isOperand (p.modes.isOn .taintThroughPointers) src₂)
    (fun _ => rfl) (fun _ => rfl) hdst hf
    fun _ _ hst => L.taint_or (L.isOperand hst src₁) (L.isOperand hst src₂)

theorem writeRegister (id : Nat) (comment : String) (hid : S.TargetId id) (hf : S.knows w l f g)
    (hb : S.taint l b b') :
    S.Writes w (writeRegister id f comment b) (writeRegister id g comment b') S.nothing := by
  refine (L.register id).then fun reg reg' hreg => ?_
  obtain ⟨rfl, hreg⟩ := hreg
  exact L.put comment (hid reg hreg) hf hb

/-- A number that is its own root wherever an architecture has it may be written. -/
theorem targetId_root (h : ∀ reg, S.arch.register? id = some reg →
    reg.parent = id ∧ S.arch.isZeroRegister reg = false) : S.TargetId id := by
  intro reg hreg
  obtain ⟨hparent, hzero⟩ := h reg hreg
  refine L.target_root (has_of_register? hreg) ?_ hzero
  rw [Register.isRoot, beq_iff_eq, hparent, register?_id hreg]

theorem targetId_of_mem {ids : List Nat} (h : id ∈ ids) (hall : ∀ arch : Architecture, ∀ id ∈ ids,
    (arch.register? id).all (fun reg => reg.parent = id ∧ arch.isZeroRegister reg = false)) :
    S.TargetId id := by
  refine L.targetId_root fun reg hreg => ?_
  have hid := hall S.arch id h
  rw [hreg] at hid
  exact of_decide_eq_true hid

theorem targetId_hasRoot (h : S.HasRoot id) : S.TargetId id := by
  obtain ⟨reg, hreg, hroot, hzero, -⟩ := h
  intro other hother
  obtain rfl := Option.some.inj (hreg.symm.trans hother)
  exact L.target_root (has_of_register? hreg) hroot hzero

/-! Undefined registers. -/

theorem ifUndefined (hon : S.BothRead w (Step.isOn .concretizeUndefinedRegisters) (· = ·))
    {x y : Step Unit} (h : S.Writes w x y S.nothing) :
    S.Writes w (ifUndefined x) (ifUndefined y) S.nothing := by
  refine hon.then fun on on' hon => ?_
  subst hon
  cases on with
  | false => exact Writes.pure L.toWords trivial
  | true => exact h

section

variable (hunknown : ∀ {reg}, S.arch.Has reg →
  S.BothWrite w (unknownValue reg) fun w => S.knows w true)

include hunknown

theorem forget (hid : S.HasRoot id) (htaint : S.taint true false false) :
    S.BothWrite w (forget id) S.nothing := by
  refine (L.register id).then fun reg reg' hreg => ?_
  obtain ⟨rfl, hreg⟩ := hreg
  refine L.bind (hunknown (has_of_register? hreg)) fun w' hle f f' hf => ?_
  exact L.writeRegister _ _ (L.targetId_hasRoot hid) hf htaint

theorem forgetUnless (hid : S.HasRoot id) (hf : S.knows w l f g) (K : Nat → Nat → Prop)
    (hkept : ∀ {w'}, S.knows w' l f g → S.Reads w' (evaluate f) (evaluate g) K)
    (htaint : ∀ {n n' m b b'}, K n n' → S.taint m b b' →
      S.taint true (n ≠ 0 && b) (n' ≠ 0 && b')) :
    S.Writes w (forgetUnless f id) (forgetUnless g id) S.nothing := by
  refine (L.register id).then fun reg reg' hreg => ?_
  obtain ⟨rfl, hreg⟩ := hreg
  have hhas := has_of_register? hreg
  refine (L.readRegister (L.source_register hhas)).then fun old old' hold => ?_
  refine L.bind (hunknown hhas) fun w' hle fresh fresh' hfresh => ?_
  have hf' := L.knows_mono hle hf
  have hold := L.raise (Bool.le_true _) (L.knows_mono hle hold)
  refine (L.ite (L.raise (Bool.le_true _) hf') hold hfresh).then fun r r' hr => ?_
  refine (hkept hf').then fun n n' hn => ?_
  refine (L.isRegisterTainted id).then fun b b' hb => ?_
  exact L.writeRegister _ _ (L.targetId_hasRoot hid) hr (htaint hn hb)

end

end Laws

/-! Ends of instructions. -/

/-- The laws of the parts that depend on the modes or on where control goes. -/
structure Covers (S : Simulation) : Prop where
  undefine : ∀ {w} {id : Nat}, S.HasRoot id →
    S.Writes w (Step.undefine id) (Step.undefine id) S.nothing
  undefineUnless : ∀ {w l f g} {id : Nat}, S.Flat → S.HasRoot id → S.knows w l f g →
    f.width = 1 → S.Writes w (Step.undefineUnless f id) (Step.undefineUnless g id) S.nothing
  advanceTo : ∀ {w} (next : Address),
    S.Ends w (setNext false false next) (setNext false false next)
  arrive : ∀ {w l f g} (conditional : Bool), S.knows w l f g →
    f.width = S.arch.programCounter.bits →
    S.Ends w (Step.arrive f conditional) (Step.arrive g conditional)

theorem Ends.completeBranch (hx : S.Ends w x y) :
    S.Ends w (completeBranch x) (completeBranch y) := by
  intro s t hst
  refine (hx s t hst).bind fun _ _ s t h => ⟨h.1, rfl⟩

namespace Covers

variable (C : S.Covers) (L : S.Laws)

include L in
theorem target_programCounter : S.TargetId S.arch.programCounter.id := by
  refine L.targetId_root fun reg hreg => ?_
  obtain rfl : S.arch.programCounter = reg :=
    Option.some.inj (S.arch.programCounter_has.symm.trans hreg)
  cases S.arch <;> exact ⟨rfl, rfl⟩

include C L

theorem advance : S.BothEnd w advance := by
  refine Ends.after L.archReads fun a b hab => ?_
  obtain ⟨rfl, rfl⟩ := hab
  refine Ends.after L.fallThrough fun next next' hnext => ?_
  subst hnext
  refine Ends.after (L.constant _ _ fun _ => S.arch.programCounter_has.wordWidth) fun f f' hf => ?_
  refine Ends.bind (L.writeRegister _ _ (target_programCounter L) hf.1 L.taint_false)
    fun w' _ _ _ _ => ?_
  exact C.advanceTo next

theorem jump {l : Bool} (conditional : Bool) (hf : S.knows w l f g) (hb : S.taint l b b') :
    S.Ends w (jump f b conditional) (jump g b' conditional) := by
  refine Ends.after L.archReads fun a b hab => ?_
  obtain ⟨rfl, rfl⟩ := hab
  have hpos := S.arch.programCounter_has.bits_pos
  refine Ends.after ((L.resize _ hf).both (L.resize_width _ hf)) fun f f' hf => ?_
  refine Ends.bind (L.writeRegister _ _ (target_programCounter L) hf.1 hb) fun w' hle _ _ _ => ?_
  exact C.arrive conditional (L.knows_mono hle hf.1) (hf.2 hpos)

theorem complete (hx : S.Writes w x y S.nothing) : S.Ends w (complete x) (complete y) := by
  refine Ends.bind hx fun w' _ _ _ _ => ?_
  intro s t hst
  refine (C.advance L s t hst).bind fun _ _ s t h => ⟨h.1, rfl⟩

end Covers

theorem Laws.choose (L : S.Laws) {l : Bool} {c c' f f' : Formula}
    (hw : S.sure → Formula.WordWidth width) (hc : S.knows w l c c') (hf : S.knows w l f f') :
    S.Reads w (choose c f width) (choose c' f' width) (S.knows w l) := by
  refine L.fallThrough.bind fun next next' hnext => ?_
  subst hnext
  exact Reads.bind (L.word l _ hw) fun n n' hn => L.ite hc hf hn

end Simulation

end Concolic
