import Concolic.Proofs.Abreast
import Concolic.Proofs.Lockstep.Record
import Concolic.Proofs.Lockstep.Step

/-
  Two runs abreast of the parts of an instruction.

  The simulation `abreast` relates two frames whose engines run abreast, where what
  is hidden is what is tainted. A formula is known at a level if its values in the
  two runs are alike as far as the comparison looks at formulas of the level. The
  laws are shown for the primitive parts: a write gives both engines formulas alike,
  hides what may differ, and the taint that follows covers what is hidden.
-/

namespace Concolic

open Step Engine Expression Comparison Symbolic Architecture

variable {access : Access} {b b' m n : Bool} {f g c c' f' g' : Formula} {dst : Operand}
  {comment : String} {α β : Type} {taint taint' : Taint} {hidden : Place → Prop}
  {post : α → β → Prop}

/-! Frames. -/

namespace Comparison

variable (k : Comparison)

/-- The places that may have two values: where taint is tracked, the tainted ones. -/
def Hides (taint : Taint) (place : Place) : Prop := k.tracked = true ∧ taint.isPlace place = true

/-- The operands that instructions may name. -/
def Names : Operand → Prop
  | .immediate _ => True
  | .register reg => k.Source reg
  | .memory access => (∀ reg, access.base = some reg → k.Source reg) ∧
      ∀ reg, access.index = some reg → k.Source reg

/-- The operands that may be written: where taint is tracked, registers with the whole
of their root. -/
def Writes : Operand → Prop
  | .register reg => k.Source reg ∧
      (k.tracked = true → reg.isRoot = true ∨ reg.merge = .zeroExtend)
  | _ => True

/-- What is hidden after a write is tainted where the destination takes a taint that covers
the level of what is written. -/
theorem hides_setOperand {k : Comparison} {l : Bool} {place : Place}
    (h : HiddenAfter (k.Hides taint) dst (k.tracked && l) place)
    (hl : k.tracked = true → l = true → b = true) : k.Hides (taint.setOperand b dst).2 place := by
  rw [Hides, Taint.isPlace_setOperand]
  rcases h with ⟨hcovers, hlevel⟩ | ⟨hcovers, htracked, hplace⟩
  · obtain ⟨htracked, hlevel⟩ := (Bool.and_eq_true _ _).mp hlevel
    exact ⟨htracked, by rw [if_pos hcovers, hl htracked hlevel]⟩
  · exact ⟨htracked, by rw [if_neg hcovers, hplace]⟩

end Comparison

structure Frame.Abreast (k : Comparison) (hidden : Place → Prop) (s t : Frame) : Prop where
  engines : s.engine.Abreast k hidden t.engine
  leftListed : s.Listed
  rightListed : t.Listed
  lists : k.exact = true → s.instruction.expressions = t.instruction.expressions
  control : k.tracked = false → s.instruction.branch = t.instruction.branch ∧
    s.instruction.taken = t.instruction.taken ∧ s.instruction.next = t.instruction.next

def Frame.Knows (k : Comparison) (s t : Frame) (l : Bool) (f g : Formula) : Prop :=
  Engine.Knows k s.engine t.engine l f g

/-- The numbers of the expressions that two writes made, if they did, of those there are. -/
inductive Comparison.Made (k : Comparison) (m n : Nat) : Option Nat → Option Nat → Prop
  | none : k.Made m n none none
  | some {i j : Nat} (same : k.exact = true → i = j) (left : i < m) (right : j < n) :
      k.Made m n (some i) (some j)

theorem Comparison.Made.later {k : Comparison} {m n m' n' : Nat} {i j : Option Nat}
    (h : k.Made m n i j) (hm : m ≤ m') (hn : n ≤ n') : k.Made m' n' i j := by
  cases h with
  | none => exact .none
  | some same left right => exact .some same (left.trans_le hm) (right.trans_le hn)

/-- What a write leaves of two frames, with the numbers of the expressions that it made. -/
structure Frame.Written (k : Comparison) (hidden : Place → Prop) (s t : Frame) (i j : Option Nat)
    (s' t' : Frame) : Prop where
  abreast : Frame.Abreast k hidden s' t'
  left : s.Keeps s'
  right : t.Keeps t'
  leftTaint : s'.taint = s.taint
  rightTaint : t'.taint = t.taint
  made : k.Made s'.symbolic.expressions.size t'.symbolic.expressions.size i j

namespace Frame.Written

variable {k : Comparison} {hidden hidden' : Place → Prop} {a b s t s' t' : Frame}
  {i j : Option Nat}

theorem after (h : Written k hidden s t i j s' t') (hs : a.Keeps s) (ht : b.Keeps t)
    (htaint : s.taint = a.engine.taint) (htaint' : t.taint = b.engine.taint) :
    Written k hidden a b i j s' t' :=
  { h with
    left := hs.trans h.left
    right := ht.trans h.right
    leftTaint := h.leftTaint.trans htaint
    rightTaint := h.rightTaint.trans htaint' }

theorem mono (h : Written k hidden s t i j s' t') (hle : ∀ place, hidden place → hidden' place) :
    Written k hidden' s t i j s' t' :=
  { h with abreast := { h.abreast with engines := h.abreast.engines.mono hle } }

end Frame.Written

namespace Frame.Abreast

variable {k : Comparison} {hidden hidden' : Place → Prop} {s t s' t' : Frame} {l : Bool}

section

variable (h : Abreast k hidden s t)

include h

theorem mono (hle : ∀ place, hidden place → hidden' place) :
    Abreast k hidden' s t := { h with engines := h.engines.mono hle }

theorem next (hs : s.Keeps s') (ht : t.Keeps t') (hengines : s'.engine.Abreast k hidden' t'.engine)
    (hlists : k.exact = true → s'.instruction.expressions = t'.instruction.expressions) :
    Abreast k hidden' s' t' where
  engines := hengines
  leftListed := hs.listed h.leftListed
  rightListed := ht.listed h.rightListed
  lists := hlists
  control hk := by
    obtain ⟨hbranch, htaken, hnext⟩ := h.control hk
    refine ⟨?_, ?_, ?_⟩
    · rw [hs.same Instruction.branch, ht.same Instruction.branch, hbranch]
    · rw [hs.same Instruction.taken, ht.same Instruction.taken, htaken]
    · rw [hs.same Instruction.next, ht.same Instruction.next, hnext]

theorem withPool (pool pool' : Pool) : Abreast k hidden (s.withPool pool) (t.withPool pool') :=
  h.next (.withPool s pool) (.withPool t pool') (h.engines.withPool pool pool') h.lists

theorem build {x : Build α} {y : Build β}
    (hxy : Build.Matches s.modes.rules t.modes.rules x y post) :
    Step.Outcomes (fun _ => Abreast k hidden)
      (fun a b s' t' => ∃ pool pool', s' = s.withPool pool ∧ t' = t.withPool pool' ∧ post a b)
      (exec (Exec.build x) s) (exec (Exec.build y) t) := by
  rcases hxy with ⟨a, b, ha, hb, hab⟩ | ⟨e, he, he'⟩
  · obtain ⟨pool, hs⟩ := Step.run_build ha
    obtain ⟨pool', ht⟩ := Step.run_build hb
    rw [hs, ht]
    exact ⟨pool, pool', rfl, rfl, hab⟩
  · obtain ⟨pool, hs⟩ := Step.run_build he
    obtain ⟨pool', ht⟩ := Step.run_build he'
    rw [hs, ht]
    exact ⟨rfl, h.withPool pool pool'⟩

/-! Writing. -/

theorem size_eq (hk : k.exact = true) : s.symbolic.expressions.size = t.symbolic.expressions.size :=
  (h.engines.exact hk).size_eq

theorem tag_eq (f g : Formula) (origin : Origin) (comment : String) (hk : k.exact = true) :
    (s.newExpression f origin comment).tag = (t.newExpression g origin comment).tag := by
  simp only [newExpression, tag, h.size_eq hk]

theorem recordNew {origin : Origin} {m m' : Machine}
    (hengines : (s.assigned f origin comment m).engine.Abreast k hidden'
      (t.assigned g origin comment m').engine) :
    Step.Outcomes (fun _ => Abreast k hidden)
      (fun i j s' t' => Written k hidden' s t (some i) (some j) s' t')
      (recordNew s (s.assigned f origin comment m)) (recordNew t (t.assigned g origin comment m')) := by
  obtain ⟨s', hs, hrun⟩ := run_recordNew s f origin comment m
  obtain ⟨t', ht, hrun'⟩ := run_recordNew t g origin comment m'
  have hnew : s'.engine.Abreast k hidden' t'.engine := by
    rw [hs.engine, ht.engine]
    refine hengines.update hs.updates ht.updates (note_spec _).1
      (note_spec _).1 fun hk => ⟨h.size_eq hk, fun x y hxy => ?_⟩
    rw [tag_note, tag_note, hxy]
  rw [hrun, hrun']
  refine {
    abreast := h.next hs.keeps ht.keeps hnew fun hk => ?_
    left := hs.keeps
    right := ht.keeps
    leftTaint := by rw [hs.engine]; rfl
    rightTaint := by rw [ht.engine]; rfl
    made := .some h.size_eq hs.size_lt ht.size_lt }
  rw [hs.instruction, ht.instruction]
  simp only [h.lists hk, h.size_eq hk]

theorem writeRoot {root : Register} (comment : String) (hroot : k.arch.Has root)
    (hf : Knows k s t l f g) :
    Step.Outcomes (fun _ => Abreast k hidden)
      (fun i j s' t' => root.isRoot = true ∧ Written k
        (HiddenAfter hidden (.register root) (k.tracked && l)) s t (some i) (some j) s' t')
      (writeRoot root f comment s) (writeRoot root g comment t) := by
  rw [run_writeRoot, run_writeRoot, ← checkOrigin_congr hf.width_eq]
  cases hcheck : checkOrigin f (.register root) with
  | error e => exact ⟨rfl, h⟩
  | ok _ =>
    obtain ⟨hisRoot, hwidth⟩ := checkOrigin_register hcheck
    rw [evaluate_eq hf.left, evaluate_eq hf.right]
    refine (h.recordNew ?_).imp fun _ _ _ _ hw => ⟨hisRoot, hw⟩
    exact h.engines.writeRegister hroot hisRoot hf hwidth (h.tag_eq f g _ comment)

/-- Memory is written with formulas that leave the engines abreast. -/
theorem writeFormulas (comment : String) (hopcode : s.instruction.opcode = t.instruction.opcode)
    (hf : f.OverVariables s.scope) (hg : g.OverVariables t.scope)
    (hwidth : f.width = g.width) (hengines : f.width = access.bytes * 8 →
      (s.assigned f (.memory access) comment (s.machine.setValue access.address
        access.bytes (s.context.evaluate f))).engine.Abreast k hidden'
      (t.assigned g (.memory access) comment (t.machine.setValue access.address
        access.bytes (t.context.evaluate g))).engine) :
    Step.Outcomes (fun _ => Abreast k hidden)
      (fun i j s' t' => Written k hidden' s t (some i) (some j) s' t')
      (writeMemory access f comment s) (writeMemory access g comment t) := by
  by_cases hbits : f.width = access.bits
  · rw [run_writeMemory hbits comment h.engines.left.agrees.noArray,
      run_writeMemory (hwidth ▸ hbits) comment h.engines.right.agrees.noArray,
      ← checkOrigin_congr hwidth]
    cases hcheck : checkOrigin f (.memory access) with
    | error e => exact ⟨rfl, h⟩
    | ok _ =>
      obtain ⟨-, hbytes⟩ := checkOrigin_memory hcheck
      rw [evaluate_eq hf, evaluate_eq hg]
      refine h.recordNew (hengines ?_)
      show f.width = access.bits / 8 * 8
      omega
  · unfold writeMemory
    rw [if_pos hbits, if_pos (hwidth ▸ hbits)]
    exact ⟨congrArg (Error.invalidOperand · _) hopcode, h⟩

theorem writeMemory (comment : String) (hopcode : s.instruction.opcode = t.instruction.opcode)
    (hf : Knows k s t l f g) :
    Step.Outcomes (fun _ => Abreast k hidden)
      (fun i j s' t' => Written k
        (HiddenAfter hidden (.memory access) (k.tracked && l)) s t (some i) (some j) s' t')
      (writeMemory access f comment s) (writeMemory access g comment t) :=
  h.writeFormulas comment hopcode hf.left hf.right hf.width_eq fun hwidth =>
    h.engines.writeMemory hf hwidth (h.tag_eq f g _ comment)

/-- A zero register takes no value, and is not looked at where taint is tracked. -/
theorem discard {reg : Register} (hreg : k.Source reg) (hzero : k.arch.isZeroRegister reg = true)
    (hhidden : ∀ place, hidden place → k.tracked = true) :
    Abreast k (HiddenAfter hidden (.register reg) (k.tracked && l)) s t := by
  have hengines := h.engines
  refine { h with engines := { hengines with sites := fun site hsite hshown => ?_ } }
  refine hengines.sites site hsite fun hh => hshown (.inr ⟨fun hcovers => ?_, hh⟩)
  cases site with
  | byte address => exact hcovers
  | register other =>
    have htracked := hhidden _ hh
    have hhas : ∀ {reg}, k.Source reg → k.arch.Has reg := by
      intro reg hreg
      rw [Source, if_pos htracked] at hreg
      exact hreg
    have hcongr := (hhas hreg).isZeroRegister_congr (hhas hsite.1) hcovers
    rw [hzero, hsite.2 htracked] at hcongr
    cases hcongr

/-- A destination is written in both frames: what is written at a level of two values
is hidden from then on. -/
theorem write (comment : String) (hdst : k.Writes dst)
    (hhidden : ∀ place, hidden place → k.tracked = true)
    (hopcode : s.instruction.opcode = t.instruction.opcode) (hf : Knows k s t l f g) :
    Step.Outcomes (fun _ => Abreast k hidden)
      (Written k (HiddenAfter hidden dst (k.tracked && l)) s t)
      (write dst f comment s) (write dst g comment t) := by
  cases dst with
  | immediate imm => exact ⟨congrArg (Error.invalidOperand · _) hopcode, h⟩
  | memory access =>
    exact (h.writeMemory comment hopcode hf).bind fun _ _ _ _ hw => hw
  | register reg =>
    obtain ⟨hsource, hwhole⟩ := hdst
    rw [run_writeRegister, run_writeRegister, h.engines.left.arch, h.engines.right.arch]
    by_cases hzero : k.arch.isZeroRegister reg = true
    · rw [if_pos hzero, if_pos hzero]
      exact ⟨h.discard hsource hzero hhidden, .refl s, .refl t, rfl, rfl, .none⟩
    · rw [if_neg hzero, if_neg hzero]
      have hmerge : Build.Matches s.modes.rules t.modes.rules
          (s.symbolic.mergeRegister s.arch s.machine reg f)
          (t.symbolic.mergeRegister t.arch t.machine reg g)
          (Knows k s t l) := h.engines.mergeRegister hwhole hhidden hf
      rw [h.engines.left.arch, h.engines.right.arch] at hmerge
      refine (h.build hmerge).bind ?_
      rintro m m' _ _ ⟨pool, pool', rfl, rfl, hm⟩
      have hpool := h.withPool pool pool'
      rw [run_bind, run_bind, run_register, run_register,
        hpool.engines.left.arch, hpool.engines.right.arch, Architecture.register]
      cases hroot : k.arch.register? reg.parent with
      | none => exact ⟨rfl, hpool⟩
      | some root =>
        refine (hpool.writeRoot comment (has_of_register? hroot) hm).bind fun i j s' t' hw => ?_
        obtain ⟨hisRoot, hw⟩ := hw
        have hparent := parent_root hroot hisRoot
        refine (hw.mono fun place hh => ?_).after (.withPool s pool) (.withPool t pool') rfl rfl
        have hcovers : (Operand.register root).Covers place ↔
            (Operand.register reg).Covers place := by
          cases place with
          | root id => simp only [Operand.Covers, hparent]
          | byte address => exact Iff.rfl
        rwa [HiddenAfter, hcovers] at hh

theorem retaint (htaint : k.tainted = true → taint = taint') :
    Abreast k hidden { s with taint := taint } { t with taint := taint' } :=
  h.next (.retaint s taint) (.retaint t taint') (h.engines.retaint htaint) h.lists

theorem stamp {i j : Option Nat} (hmade : k.Made s.symbolic.expressions.size
      t.symbolic.expressions.size i j) (hb : k.exact = true → b = b') :
    Step.Outcomes (fun _ => Abreast k hidden)
      (fun _ _ s' t' => Abreast k hidden s' t' ∧ s.Keeps s' ∧ t.Keeps t' ∧
        s'.taint = s.taint)
      (stamp i b s) (stamp j b' t) := by
  cases hmade with
  | none => exact ⟨h, .refl s, .refl t, rfl⟩
  | some same left right =>
    obtain ⟨symbolic, hs, hrun⟩ := run_stamp left b
    obtain ⟨symbolic', ht, hrun'⟩ := run_stamp right b'
    have hkeeps : s.Keeps { s with symbolic := symbolic } := .update hs fun _ => rfl
    have hkeeps' : t.Keeps { t with symbolic := symbolic' } := .update ht fun _ => rfl
    rw [hrun, hrun']
    refine ⟨h.next hkeeps hkeeps' ?_ h.lists, hkeeps, hkeeps', rfl⟩
    refine h.engines.update hs ht (fun _ => rfl) (fun _ => rfl) fun hk =>
      ⟨same hk, fun x y hxy => ?_⟩
    simp only [tag, Prod.mk.injEq] at hxy ⊢
    exact ⟨hxy.1, hxy.2.1, hb hk⟩

end

end Frame.Abreast

/-! The simulation. -/

/-- The simulation of frames abreast. Of the level `true` is what may be tainted where
taint is tracked, and the taint that is given covers it. -/
def abreast (k : Comparison) : Simulation where
  arch := k.arch
  World := Frame × Frame
  le w w' := w.1.context.Later w'.1.context ∧
    w.2.context.Later w'.2.context
  frames w s t := (∃ pool, s = w.1.withPool pool) ∧ (∃ pool, t = w.2.withPool pool) ∧
    s.SameCode k.arch k.Names t ∧ Frame.Abreast k (k.Hides s.taint) s t
  final s t := Frame.Abreast k (k.Hides s.taint) s t
  failed _ := Frame.Abreast k fun _ => k.tracked = true
  sure := False
  source := k.Names
  legible _ _ := True
  target := k.Writes
  level w op := k.tracked && w.1.taint.isOperand false op
  knows w := Frame.Knows k w.1 w.2
  taint l b b' := (k.tainted = true → b = b') ∧ (k.tracked = true → l = true → b = true)
  whole w dst := k.tracked = true → w.1.taint.isOperand false dst = true →
    ∀ place, dst.Covers place → w.1.taint.isPlace place = true

namespace Abreast

open Simulation

variable {k : Comparison} {w : Frame × Frame} {l : Bool} {s t s' t' : Frame}

theorem failed {e : Error} (h : Frame.Abreast k (k.Hides taint) s t) :
    (abreast k).failed e s t := h.mono fun _ hh => hh.1

theorem fails {α β : Type} {answers : α → β → Frame → Frame → Prop}
    {r : EStateM.Result Error Frame α} {r' : EStateM.Result Error Frame β}
    (h : Step.Outcomes (fun _ => Frame.Abreast k (k.Hides taint)) answers r r') :
    Step.Outcomes (abreast k).failed answers r r' :=
  h.mono (fun _ _ _ => failed) fun _ _ _ _ => id

theorem frames_self (hcode : s.SameCode k.arch k.Names t)
    (h : Frame.Abreast k (k.Hides s.taint) s t) : (abreast k).frames (s, t) s t :=
  ⟨⟨_, rfl⟩, ⟨_, rfl⟩, hcode, h⟩

/-- The outcomes of a write: it leads to a later world, where the answers are so. -/
abbrev Goes {α β : Type} (k : Comparison) (w : Frame × Frame)
    (post : Frame × Frame → α → β → Prop) :=
  Step.Outcomes (abreast k).failed fun a b s t =>
    ∃ w', (abreast k).le w w' ∧ (abreast k).frames w' s t ∧ post w' a b

theorem world_next {p : Frame × Frame → Prop} (hst : (abreast k).frames w s t) (hs : s.Keeps s')
    (ht : t.Keeps t') (h : Frame.Abreast k (k.Hides s'.taint) s' t') (hp : p (s', t')) :
    ∃ w', (abreast k).le w w' ∧ (abreast k).frames w' s' t' ∧ p w' := by
  obtain ⟨⟨pool, rfl⟩, ⟨pool', rfl⟩, hcode, -⟩ := hst
  exact ⟨(s', t'), ⟨hs.later, ht.later⟩, frames_self (hs.sameCode ht hcode) h, hp⟩

theorem knows_frames (hst : (abreast k).frames w s t) :
    (abreast k).knows w l f g ↔ Frame.Knows k s t l f g := by
  obtain ⟨⟨pool, rfl⟩, ⟨pool', rfl⟩, -, -⟩ := hst
  exact Iff.rfl

theorem reads_build {x : Step α} {y : Step β}
    (h : ∀ s t, (abreast k).frames w s t → ∃ a b, x s = exec (Exec.build a) s ∧
      y t = exec (Exec.build b) t ∧
      Build.Matches s.modes.rules t.modes.rules a b post) :
    (abreast k).Reads w x y post := by
  intro s t hst
  obtain ⟨a, b, hx, hy, hab⟩ := h s t hst
  rw [hx, hy]
  obtain ⟨⟨pool, rfl⟩, ⟨pool', rfl⟩, hcode, hframes⟩ := hst
  refine (fails (hframes.build hab)).imp ?_
  rintro c d _ _ ⟨p, p', rfl, rfl, hcd⟩
  refine ⟨⟨⟨p, rfl⟩, ⟨p', rfl⟩, ?_, hframes.withPool p p'⟩, hcd⟩
  exact (Frame.Keeps.withPool _ p).sameCode (.withPool _ p') hcode

theorem call {c c' : Call} (h : Call.Corresponds ((abreast k).knows w l) c c') :
    (abreast k).Reads w (exec (Exec.build c.run)) (exec (Exec.build c'.run))
      fun f g => (abreast k).knows w l f g ∧ f.width = c.plain.width :=
  reads_build fun _ _ _ => ⟨_, _, rfl, rfl, .call_width views_fits h⟩

theorem words : (abreast k).Words where
  refl _ := ⟨.refl _, .refl _⟩
  trans h₁ h₂ := ⟨h₁.1.trans h₂.1, h₁.2.trans h₂.2⟩
  knows_mono hle h := by
    refine Formula.Alike.mono (Formula.Alike.extend h hle.1.scope hle.2.scope) ?_
    exact fun v v' hv => ⟨hv.1, hv.2.earlier hle.1 hle.2⟩
  raise hl h := Formula.Alike.mono h fun v v' hv => ⟨fun ht => by
    have hlevel := hv.1 ht
    rw [hlevel] at hl
    exact Bool.eq_false_of_le_false hl, hv.2⟩
  width_eq h := h.width_eq
  width_range _ := False.elim
  constant value width _ := reads_build fun _ _ _ => ⟨_, _, rfl, rfl, .constant value width⟩
  call h := (call h).mono fun _ _ hr => ⟨hr.1, hr.2, False.elim⟩
  cancel {w l f g} h := by
    have hcall : Call.Corresponds ((abreast k).knows w l) (.arith .xor f f) (.arith .xor g g) :=
      .arith h h
    refine reads_build fun _ _ _ => ⟨_, _, rfl, rfl, ?_⟩
    refine (Build.Matches.call_of_eval views_fits hcall fun v v' _ => ?_).mono fun _ _ hr => hr.1
    simp only [Call.plain, Formula.eval, ArithOp.apply, Word.xor_self]
  failed h _ := failed h.2.2.2

/-! Writing. -/

/-- A destination is written and then takes a taint that covers what is hidden. -/
theorem assign {x y : Step Bool} (hst : (abreast k).frames w s t)
    (hwrite : Step.Outcomes (fun _ => Frame.Abreast k (k.Hides s.taint))
      (Frame.Written k hidden s t) (write dst f comment s) (write dst g comment t))
    (hx : ∀ s', s.Keeps s' → s'.taint = s.taint →
      x s' = .ok b { s' with taint := taint })
    (hy : ∀ t', t.Keeps t' → t'.taint = t.taint →
      y t' = .ok b' { t' with taint := taint' })
    (hhidden : ∀ place, hidden place → k.Hides taint place)
    (htaint : k.tainted = true → taint = taint' ∧ b = b') :
    Goes k w (fun w' c c' => w'.1.taint = taint ∧ c = b ∧ c' = b')
      (assign dst f comment x s) (assign dst g comment y t) := by
  refine (fails hwrite).bind fun i j s₁ t₁ hw => ?_
  -- the taint is set once both are written, and then the expressions are stamped with it
  rw [run_bind, run_bind, hx s₁ hw.left hw.leftTaint, hy t₁ hw.right hw.rightTaint]
  have hretaint := (hw.abreast.mono hhidden).retaint fun hk => (htaint hk).1
  refine (fails (hretaint.stamp hw.made fun hk => (htaint (k.exactly hk)).2)).bind
    fun _ _ s₃ t₃ h₃ => ?_
  obtain ⟨habreast, hs₃, ht₃, hs₃taint⟩ := h₃
  refine world_next hst ((hw.left.trans (.retaint s₁ taint)).trans hs₃)
    ((hw.right.trans (.retaint t₁ taint')).trans ht₃) ?_ ⟨hs₃taint, rfl, rfl⟩
  rw [hs₃taint]
  exact habreast

theorem write (comment : String) (hst : (abreast k).frames w s t) (hdst : k.Writes dst)
    (hf : (abreast k).knows w l f g) :
    Step.Outcomes (fun _ => Frame.Abreast k (k.Hides s.taint))
      (Frame.Written k (HiddenAfter (k.Hides s.taint) dst (k.tracked && l)) s t)
      (write dst f comment s) (write dst g comment t) :=
  hst.2.2.2.write comment hdst (fun _ hh => hh.1) hst.2.2.1.opcode ((knows_frames hst).1 hf)

theorem taint_frames (hst : (abreast k).frames w s t) : s.taint = w.1.taint := by
  obtain ⟨⟨pool, rfl⟩, -⟩ := hst
  rfl

/-- What is tainted in the first run is in the second, and covers the level. -/
theorem isOperand (hst : (abreast k).frames w s t) (op : Operand) :
    (abreast k).taint ((abreast k).level w op)
      (s.taint.isOperand s.pointerTaint op)
      (t.taint.isOperand t.pointerTaint op) := by
  have hengines := hst.2.2.2.engines
  refine ⟨fun hk => ?_, fun _ hlevel => ?_⟩
  · rw [pointerTaint, pointerTaint, hengines.left.modes, hengines.right.modes,
      k.pointers hk, hengines.taint hk]
  · obtain ⟨-, hlevel⟩ := (Bool.and_eq_true _ _).mp hlevel
    rw [taint_frames hst]
    exact Taint.isOperand_mono _ _ hlevel

theorem set (comment : String) (hdst : k.Writes dst) (hf : (abreast k).knows w l f g)
    (hb : (abreast k).taint l b b') :
    (abreast k).Writes w (Step.assign dst f comment (Step.setTaint dst b))
      (Step.assign dst g comment (Step.setTaint dst b')) fun w' c c' =>
        w'.1.taint = (w.1.taint.setOperand b dst).2 ∧ (abreast k).taint l c c' := by
  intro s t hst
  cases himm : dst.immediate? with
  | some imm =>
    cases dst with
    | immediate imm =>
      exact ⟨congrArg (Error.invalidOperand · _) hst.2.2.1.opcode, failed hst.2.2.2⟩
    | _ => cases himm
  | none =>
    have hrun : ∀ (b : Bool) (s s' : Frame), s'.taint = s.taint →
        setTaint dst b s' = .ok b { s' with
          engine.taint := (s.taint.setOperand b dst).2 } := by
      intro b s s' htaint
      rw [← htaint]
      cases dst with
      | immediate imm => cases himm
      | _ => rfl
    refine (assign hst (write comment hst hdst hf) (fun s' _ => hrun b s s')
      (fun t' _ => hrun b' t t') (fun _ hh => hides_setOperand hh hb.2) ?_).imp ?_
    · intro hk
      rw [hst.2.2.2.engines.taint hk, hb.1 hk]
      exact ⟨rfl, rfl⟩
    · rintro c c' s' t' ⟨w', hle, hframes, htaint, rfl, rfl⟩
      exact ⟨w', hle, hframes, taint_frames hst ▸ htaint, hb⟩

/-- A destination is written and keeps its taint, which covers what is hidden. -/
theorem keepTaint (hst : (abreast k).frames w s t)
    (hwrite : Step.Outcomes (fun _ => Frame.Abreast k (k.Hides s.taint))
      (Frame.Written k hidden s t) (Step.write dst f comment s) (Step.write dst g comment t))
    (hhidden : ∀ place, hidden place → k.Hides s.taint place) :
    Goes k w (fun _ => (abreast k).taint ((abreast k).level w dst))
      (Step.assign dst f comment (Step.isTainted dst) s)
      (Step.assign dst g comment (Step.isTainted dst) t) := by
  have hrun : ∀ s s' : Frame, s.Keeps s' → s'.taint = s.taint →
      isTainted dst s' = .ok (s.taint.isOperand s.pointerTaint dst) { s' with
        engine.taint := s.taint } := by
    intro s s' hs htaint
    rw [pointerTaint, ← hs.modes, ← htaint]
    rfl
  refine (assign hst hwrite (hrun s) (hrun t) hhidden ?_).imp ?_
  · exact fun hk => ⟨hst.2.2.2.engines.taint hk, (isOperand hst dst).1 hk⟩
  · rintro c c' s' t' ⟨w', hle, hframes, -, rfl, rfl⟩
    exact ⟨w', hle, hframes, isOperand hst dst⟩

theorem keep (comment : String) (hdst : k.Writes dst) (hwhole : (abreast k).whole w dst)
    (hf : (abreast k).knows w ((abreast k).level w dst) f g) :
    (abreast k).Writes w (Step.assign dst f comment (Step.isTainted dst))
      (Step.assign dst g comment (Step.isTainted dst))
      fun _ => (abreast k).taint ((abreast k).level w dst) := by
  intro s t hst
  refine keepTaint hst (write comment hst hdst hf) ?_
  rintro place (⟨hcovers, hl⟩ | ⟨-, hplace⟩)
  · obtain ⟨htracked, hl⟩ := (Bool.and_eq_true _ _).mp hl
    obtain ⟨-, hlevel⟩ := (Bool.and_eq_true _ _).mp hl
    refine ⟨htracked, ?_⟩
    rw [taint_frames hst]
    exact hwhole htracked hlevel place hcovers
  · exact hplace

/-- Two destinations are written, and then take their taints in the same order. -/
theorem exchange {dst src : Operand} {c c' : Bool} (comment : String) (hdst : k.Writes dst)
    (hsrc : k.Writes src) (hf : (abreast k).knows w l f f') (hg : (abreast k).knows w m g g')
    (hb : (abreast k).taint l b b') (hc : (abreast k).taint m c c') :
    (abreast k).Writes w (exchange dst src f g comment b c)
      (exchange dst src f' g' comment b' c') (abreast k).nothing := by
  intro s t hst
  obtain ⟨-, -, hcode, h⟩ := id hst
  refine (fails (write comment hst hdst hf)).bind fun i j s₁ t₁ hw₁ => ?_
  have hg₁ : (abreast k).knows (s₁, t₁) m g g' :=
    words.knows_mono (w := (s, t)) ⟨hw₁.left.later, hw₁.right.later⟩ ((knows_frames hst).1 hg)
  have hopcode : s₁.instruction.opcode = t₁.instruction.opcode := by
    rw [hw₁.left.same Instruction.opcode, hw₁.right.same Instruction.opcode, hcode.opcode]
  have habreast₁ := hw₁.abreast.mono fun _ hh => hides_setOperand hh hb.2
  refine (fails (habreast₁.write comment hsrc (fun _ hh => hh.1) hopcode hg₁)).bind
    fun i' j' s₂ t₂ hw₂ => ?_
  -- the second destination is tainted last, so that its taint stands where the two overlap
  let first (s : Frame) (b : Bool) := s.taint.setOperand b dst
  let second (s : Frame) (b c : Bool) := (first s b).2.setOperand c src
  have htaint : s₂.taint = s.taint := hw₂.leftTaint.trans hw₁.leftTaint
  have hsame : k.tainted = true → first s₂ b = first t₂ b' ∧ second s₂ b c = second t₂ b' c' := by
    intro hk
    simp only [first, second, htaint, hw₂.rightTaint, hw₁.rightTaint, h.engines.taint hk, hb.1 hk,
      hc.1 hk, and_self]
  have hplaces : ∀ place, HiddenAfter (k.Hides (first s b).2) src (k.tracked && m) place →
      k.Hides (second s₂ b c).2 place := by
    simp only [second, first, htaint]
    exact fun _ hh => hides_setOperand hh hc.2
  have hretaint := (hw₂.abreast.mono hplaces).retaint fun hk => congrArg Prod.snd (hsame hk).2
  have hs₃ := Frame.Keeps.retaint s₂ (second s₂ b c).2
  have ht₃ := Frame.Keeps.retaint t₂ (second t₂ b' c').2
  refine (fails (hretaint.stamp (hw₁.made.later hw₂.left.size hw₂.right.size) fun hk =>
    congrArg Prod.fst (hsame (k.exactly hk)).1)).bind fun _ _ s₄ t₄ h₄ => ?_
  obtain ⟨habreast₄, hs₄, ht₄, htaint₄⟩ := h₄
  refine (fails (habreast₄.stamp (hw₂.made.later hs₄.size ht₄.size) fun hk =>
    congrArg Prod.fst (hsame (k.exactly hk)).2)).imp fun _ _ s₅ t₅ h₅ => ?_
  obtain ⟨habreast₅, hs₅, ht₅, htaint₅⟩ := h₅
  refine world_next hst ((((hw₁.left.trans hw₂.left).trans hs₃).trans hs₄).trans hs₅)
    ((((hw₁.right.trans hw₂.right).trans ht₃).trans ht₄).trans ht₅) ?_ trivial
  rw [htaint₅, htaint₄]
  exact habreast₅

theorem volatile (comment : String) (hb : (abreast k).taint l b b') :
    (abreast k).Writes w (volatile f comment b) (volatile g comment b') (abreast k).nothing := by
  intro s t hst
  obtain ⟨-, -, -, h⟩ := id hst
  rw [run_volatile, run_volatile]
  refine (fails (h.recordNew (h.engines.enter (h.tag_eq f g .volatile comment)))).bind
    fun i j s₁ t₁ hw => ?_
  refine (fails (hw.abreast.stamp hw.made fun hk => hb.1 (k.exactly hk))).imp fun _ _ s₂ t₂ h₂ => ?_
  obtain ⟨habreast, hs₂, ht₂, htaint⟩ := h₂
  refine world_next hst (hw.left.trans hs₂) (hw.right.trans ht₂) ?_ trivial
  rw [htaint, hw.leftTaint]
  exact habreast

/-! Reading. -/

/-- Where taint is not tracked, formulas of all levels have one value. -/
theorem lower (hk : k.tracked = false) (h : (abreast k).knows w l f g) :
    (abreast k).knows w m f g :=
  Formula.Alike.mono h fun _ _ hv => ⟨fun htracked => Bool.noConfusion (hk.symm.trans htracked), hv.2⟩

/-- What an operand of the lower level covers is shown. -/
theorem shown_of_level (op : Operand) {place : Place} (hcovers : op.Covers place)
    (hl : k.tracked = true → (abreast k).level w op = false) :
    ¬ k.Hides w.1.taint place := by
  rintro ⟨htracked, htaint⟩
  have hlevel : (k.tracked && w.1.taint.isOperand false op) = true :=
    (Bool.and_eq_true _ _).mpr ⟨htracked, (Taint.isOperand_iff _ _).2 ⟨place, hcovers, htaint⟩⟩
  exact Bool.noConfusion (hlevel.symm.trans (hl htracked))

theorem registerFormula {reg : Register} (hreg : k.Source reg)
    (hzero : k.arch.isZeroRegister reg = false) :
    (abreast k).Reads w (exec (registerFormula reg))
      (exec (registerFormula reg))
      ((abreast k).knows w ((abreast k).level w (.register reg))) := by
  refine reads_build fun s t hst => ⟨_, _, rfl, rfl, ?_⟩
  obtain ⟨⟨pool, rfl⟩, ⟨pool', rfl⟩, -, h⟩ := hst
  exact h.engines.registerFormula hreg fun hl =>
    ⟨⟨hreg, fun _ => hzero⟩, shown_of_level (.register reg) rfl hl⟩

theorem memoryFormula (hst : (abreast k).frames w s t) (access : Access) :
    Build.Matches s.modes.rules t.modes.rules
      (s.symbolic.memoryFormula (s.modes.isOn .alignedMemory) s.machine access)
      (t.symbolic.memoryFormula (t.modes.isOn .alignedMemory) t.machine
        access) ((abreast k).knows w ((abreast k).level w (.memory access))) := by
  obtain ⟨⟨pool, rfl⟩, ⟨pool', rfl⟩, -, h⟩ := hst
  have haligned : ∀ {e : Engine} {modes : Modes}, e.Sound k modes →
      e.modes.isOn .alignedMemory = false := fun hsound =>
    Bool.eq_false_iff.2 fun hon => hsound.agrees.keeps hon
  rw [haligned h.engines.left, haligned h.engines.right]
  exact h.engines.memoryFormula fun hl address haddress =>
    shown_of_level (.memory access) haddress hl

theorem load :
    (abreast k).Reads w (load access) (load access)
      ((abreast k).knows w ((abreast k).level w (.memory access))) := by
  refine reads_build fun s t hst => ?_
  have hengines := hst.2.2.2.engines
  exact ⟨_, _, run_load hengines.left.agrees.noArray,
    run_load hengines.right.agrees.noArray, memoryFormula hst access⟩

theorem evaluate (hst : (abreast k).frames w s t) (h : (abreast k).knows w false f g) :
    s.evaluate f = t.evaluate g :=
  hst.2.2.2.engines.evaluate_eq ((knows_frames hst).1 h)

/-- The level of a choice: of the condition, of what is chosen if the condition does not
hold, and of what is chosen if it holds, if it does. -/
def choiceLevel (w : Frame × Frame) (c : Formula) (l m n : Bool) : Bool :=
  l || n || (w.1.context.evaluate c ≠ 0 && m)

theorem select (hc : (abreast k).knows w l c c') (hf : (abreast k).knows w m f f')
    (hg : (abreast k).knows w n g g') :
    (abreast k).Reads w (exec (Exec.build (Build.ite c f g)))
      (exec (Exec.build (Build.ite c' f' g')))
      ((abreast k).knows w (choiceLevel w c l m n)) := by
  have hcall : Call.Corresponds ((abreast k).knows w true) (.ite c f g) (.ite c' f' g') :=
    .ite (words.raise (Bool.le_true _) hc) (words.raise (Bool.le_true _) hf)
      (words.raise (Bool.le_true _) hg)
  refine reads_build fun s t hst => ⟨_, _, rfl, rfl, ?_⟩
  refine (Build.Matches.call_of_eval views_fits hcall fun v v' hv => ?_).mono fun _ _ hr => hr.1
  simp only [Call.plain, Formula.eval]
  cases htracked : k.tracked with
  | false =>
    have hany : ∀ l, k.views l w.1.context w.2.context v v' := fun l =>
      ⟨fun ht => Bool.noConfusion (htracked.symm.trans ht), hv.2⟩
    rw [hc.eval_eq v v' (hany l), hf.eval_eq v v' (hany m), hg.eval_eq v v' (hany n)]
  | true =>
    -- the condition has one value, the present one, and so has what is chosen by it
    have hlevel := hv.1 htracked
    simp only [choiceLevel, Bool.or_eq_false_iff, Bool.and_eq_false_iff] at hlevel
    obtain ⟨⟨hl, hn⟩, hm⟩ := hlevel
    have hview : ∀ {l}, l = false → k.views l w.1.context w.2.context v v' :=
      fun hl => ⟨fun _ => hl, hv.2⟩
    have hcurrent : w.1.context.Current v := by
      rcases hv.2.2.2 with hcurrent | ⟨hexact, -⟩
      · exact hcurrent.1
      · rw [(k.tracks htracked).1] at hexact
        cases hexact
    rw [← hc.eval_eq v v' (hview hl), hg.eval_eq v v' (hview hn)]
    rcases hm with hm | hm
    · have hzero : c.eval v = 0 := by
        rw [hcurrent.eval hc.left]
        simpa using hm
      rw [if_pos hzero, if_pos hzero]
    · rw [hf.eval_eq v v' (hview hm)]

/-- The taint of a choice covers its level. -/
theorem taint_choice {a a' d d' : Bool} (hst : (abreast k).frames w s t)
    (hc : (abreast k).knows w l c c') (ha : (abreast k).taint l a a')
    (hb : (abreast k).taint m b b') (hd : (abreast k).taint n d d') :
    (abreast k).taint (choiceLevel w c l m n) (a || d || (s.evaluate c ≠ 0 && b))
      (a' || d' || (t.evaluate c' ≠ 0 && b')) := by
  have hvalue : s.evaluate c = w.1.context.evaluate c := by
    obtain ⟨⟨pool, rfl⟩, -⟩ := hst
    exact evaluate_eq hc.left
  refine ⟨fun hk => ?_, fun hk hlevel => ?_⟩
  · rw [← ha.1 hk, ← hb.1 hk, ← hd.1 hk]
    by_cases hl : k.tracked = true ∧ l = true
    · simp only [ha.2 hl.1 hl.2, Bool.true_or]
    · have hfalse : (abreast k).knows w false c c' := by
        cases htracked : k.tracked with
        | false => exact lower htracked hc
        | true =>
          cases l with
          | false => exact hc
          | true => exact absurd ⟨htracked, rfl⟩ hl
      rw [evaluate hst hfalse]
  · rw [hvalue]
    simp only [choiceLevel, Bool.or_eq_true, Bool.and_eq_true] at hlevel ⊢
    rcases hlevel with (hl | hn) | ⟨hchosen, hm⟩
    · exact .inl (.inl (ha.2 hk hl))
    · exact .inl (.inr (hd.2 hk hn))
    · exact .inr ⟨hchosen, hb.2 hk hm⟩

theorem laws : (abreast k).Laws where
  toWords := words
  code h := h.2.2.1
  operands := by
    rintro w _ _ _ _ ⟨⟨pool, rfl⟩, -⟩ ⟨⟨pool', rfl⟩, -⟩
    rfl
  final h := h.2.2.2
  source_range _ := False.elim
  source_register := source_of_has
  source_base h hbase := h.1 _ hbase
  source_index h hindex := h.2 _ hindex
  legible_register := trivial
  target_root hreg hroot _ := ⟨source_of_has hreg, fun _ => .inl hroot⟩
  level_parent _ _ hparent := by
    simp only [abreast, Taint.isOperand, Taint.isRegister, hparent]
  evaluate := evaluate
  registerFormula := registerFormula
  load _ := load.mono fun _ _ h => ⟨h, False.elim⟩
  taint_false := ⟨fun _ => rfl, fun _ h => by cases h⟩
  taint_or h₁ h₂ := by
    refine ⟨fun hk => by rw [h₁.1 hk, h₂.1 hk], fun hk hl => ?_⟩
    rcases (Bool.or_eq_true _ _).mp hl with hl | hl
    · rw [h₁.2 hk hl, Bool.true_or]
    · rw [h₂.2 hk hl, Bool.or_true]
  isOperand := isOperand
  select hc hf hg := (select hc hf hg).mono fun r r' hr s t hst _ _ _ _ _ _ ha hb hd =>
    ⟨_, hr, taint_choice hst hc ha hb hd⟩
  set comment hdst hf hb := (set comment hdst hf hb).mono fun _ _ _ h => h.2
  keep := keep
  restore := by
    rintro w reg f g _ _ comment hreg hroot - hf ⟨s₀, t₀, hst₀, rfl, rfl⟩
    have hdst : k.Writes (.register reg) := ⟨source_of_has hreg, fun _ => .inl hroot⟩
    refine (set comment hdst hf (isOperand hst₀ (.register reg))).mono fun w' _ _ h op => ?_
    show (k.tracked && w'.1.taint.isOperand false op) = (k.tracked && _)
    rw [h.1, taint_frames hst₀]
    exact congrArg (k.tracked && ·) (Taint.isOperand_congr (Taint.isPlace_restore _ reg) op)
  exchange := exchange
  volatile comment _ hb := volatile comment hb

end Abreast

end Concolic
