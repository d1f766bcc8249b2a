import Concolic.Proofs.Lockstep.AArch64
import Concolic.Proofs.Lockstep.Modes
import Concolic.Proofs.Lockstep.Run

/-
  Whole instructions, run abreast.

  Where the registers of addresses are not tainted, the operands are resolved to the
  same addresses in both runs, and from there the laws of the simulation lead through
  the instruction. What the modes drop afterwards falls back to its concrete value. If
  it is dropped in one run alone then its formula had no variables, and so had that
  value in the first place (`Frame.Abreast.settle`).
-/

namespace Concolic

open Step Engine Concolic.Frame

variable {place : Place} {site : Site} {k : Comparison} {e e' : Engine} {inst : Instruction}
  {reg : Register}

/-! What is dropped. -/

namespace Frame

/-- A place that the frame's instruction has bound to an expression without taint, where
the modes keep the tainted ones alone. -/
def Forgets (s : Frame) (place : Place) : Prop :=
  s.modes.isOn .onlyOnTainted = true ∧
    ∃ x, s.Lists x ∧ x.tainted = false ∧ s.symbolic.Binds x place

namespace Settles

variable {k : Comparison} {modes : Modes} {s s' : Frame} {v : Valuation}

theorem dropped_of_forgets {x : Expression} (hmode : s.modes.isOn .onlyOnTainted = true)
    (htaint : x.tainted = false) : keeps s.modes x = false := by
  simp [keeps, hmode, htaint]

section

variable (h : s.Settles s')

include h

/-- A place that is forgotten, or was not bound before, is not bound any more. -/
theorem free (hplace : s.symbolic.cell? place = none ∨ s.Forgets place) :
    s'.symbolic.cell? place = none := by
  rcases hplace with hfree | ⟨hmode, x, hx, htaint, hbinds⟩
  · rw [← hfree]
    refine h.symbolic.kept place fun x _ hx => ?_
    rw [Symbolic.Binds, hfree] at hx
    cases hx.1
  · exact h.symbolic.freed place x ⟨hx, dropped_of_forgets hmode htaint⟩ hbinds

/-- A place that is not forgotten is bound as before, or was bound to a formula without
variables. -/
theorem kept (hplace : ¬ s.Forgets place) :
    s'.symbolic.cell? place = s.symbolic.cell? place ∨
      (s'.symbolic.cell? place = none ∧ ∃ cell f, s.symbolic.cell? place = some cell ∧
        s.symbolic.formula? cell.expression = some f ∧ f.symbolic = false) := by
  by_cases hdropped : ∃ x, (s.Lists x ∧ keeps s.modes x = false) ∧
      s.symbolic.Binds x place
  · obtain ⟨x, hx, hbinds⟩ := hdropped
    refine .inr ⟨h.symbolic.freed place x hx hbinds, ?_⟩
    obtain ⟨cell, hcell, hid⟩ := Option.map_eq_some_iff.1 hbinds.1
    refine ⟨cell, x.formula, hcell, ?_, ?_⟩
    · rw [hid, Symbolic.formula?, hx.1.2]
      rfl
    · have hkeeps := hx.2
      simp only [keeps, Bool.and_eq_false_iff, Bool.or_eq_false_iff] at hkeeps
      rcases hkeeps with hconstant | ⟨hmode, htaint⟩
      · exact hconstant.2
      · exact (hplace ⟨by simpa using hmode, x, hx.1, htaint, hbinds⟩).elim
  · exact .inl (h.symbolic.kept place fun x hx hbinds => hdropped ⟨x, hx, hbinds⟩)

theorem machine : s'.machine = s.machine := by rw [h.engine]

theorem meaning_free (hplace : s.symbolic.cell? site.place = none ∨ s.Forgets site.place) :
    s'.engine.meaning v site = s.machine.readAt site := by
  rw [Engine.meaning_free (h.free hplace), h.machine]

end

/-- A site whose place is not forgotten means what it meant. -/
theorem meaning_kept (hs : s.engine.Sound k modes) (h : s.Settles s') (hsite : k.Reads site)
    (hplace : ¬ s.Forgets site.place) : s'.engine.meaning v site = s.engine.meaning v site := by
  have hreads := hs.readable hsite
  rcases h.kept hplace with hkept | ⟨hfree, cell, f, hcell, hf, hconstant⟩
  · exact hs.agrees.meaning_kept hreads h.weakens.toExtends hkept (by rw [h.machine])
  · -- the formula has one value, which is the present one
    obtain ⟨g, hg, hover, hvalue⟩ := hs.agrees.bound hreads hcell
    obtain rfl : f = g := Option.some.inj (hf.symm.trans hg)
    rw [Engine.meaning_free hfree, h.machine, meaning_bound hcell hf, ← hvalue,
      Context.evaluate_eq_eval hover fun _ => 0]
    exact congrArg _ (Formula.eval_of_not_symbolic hover.memoryless hconstant _ v)

end Settles

namespace Abreast

variable {k : Comparison} {hidden : Place → Prop} {s t s' t' : Frame}

/-- What one run forgets is forgotten in the other, or not bound there. -/
theorem forgets (hexact : s.engine.Exact t.engine)
    (hmodes : s.modes.isOn .onlyOnTainted = t.modes.isOn .onlyOnTainted)
    (hlists : s.instruction.expressions = t.instruction.expressions) (hplace : s.Forgets place) :
    t.symbolic.cell? place = none ∨ t.Forgets place := by
  obtain ⟨hmode, x, ⟨hlisted, hx⟩, htaint, hbound, hcovers⟩ := hplace
  cases hcell : t.symbolic.cell? place with
  | none => exact .inl rfl
  | some cell =>
    obtain ⟨cell', hcell', hid⟩ := Option.map_eq_some_iff.1 hbound
    -- both bindings are to the expression of one number
    have hsame : cell' = cell := hexact.cells place cell' cell hcell' hcell
    obtain ⟨y, hy, htag⟩ := Option.map_eq_some_iff.1 ((hexact.tag_eq x.id).symm.trans
      (congrArg (Option.map Expression.tag) hx))
    simp only [Expression.tag, Prod.mk.injEq] at htag
    obtain ⟨hyid, horigin, hytaint⟩ := htag
    refine .inr ⟨hmodes ▸ hmode, y, ⟨?_, ?_⟩, hytaint.trans htaint, ?_, ?_⟩
    · rw [hyid, ← hlists]
      exact hlisted
    · rw [hyid]
      exact hy
    · rw [hcell, Option.map_some, hyid, ← hid, hsame]
    · rw [horigin]
      exact hcovers

/-- The engines are abreast once each run has dropped what its modes do not keep. -/
theorem settle (h : Abreast k hidden s t) (hs : s.Settles s') (ht : t.Settles t') :
    s'.engine.Abreast k hidden t'.engine := by
  have hleft := h.engines.left.weaken hs.weakens
  have hright := h.engines.right.weaken ht.weakens
  have htaint : k.tainted = true → s'.taint = t'.taint := by
    rw [hs.engine, ht.engine]
    exact h.engines.taint
  cases hk : k.exact with
  | false =>
    refine .of_machine hk hleft hright (fun site hsite hshown => ?_) htaint
    rw [hs.machine, ht.machine]
    exact h.engines.read_eq site hsite hshown
  | true =>
    have hexact := h.engines.exact hk
    have hmodes : s.modes.isOn .onlyOnTainted = t.modes.isOn .onlyOnTainted := by
      rw [h.engines.left.modes, h.engines.right.modes]
      exact k.shapes hk _ (by decide)
    have hforgets : ∀ {place}, s.Forgets place →
        t.symbolic.cell? place = none ∨ t.Forgets place :=
      forgets hexact hmodes (h.lists hk)
    have hforgets' : ∀ {place}, t.Forgets place →
        s.symbolic.cell? place = none ∨ s.Forgets place :=
      forgets hexact.symm hmodes.symm (h.lists hk).symm
    refine h.engines.change hleft hright hs.weakens.toExtends ht.weakens.toExtends
      (fun site hsite hshown => .inr fun v v' hv => ?_) htaint fun _ =>
        hexact.fewer (by rw [hs.engine]) (by rw [ht.engine]) hs.symbolic.toFewer
          ht.symbolic.toFewer hs.symbolic.constraints ht.symbolic.constraints
    by_cases hl : s.Forgets site.place
    · rw [hs.meaning_free (.inr hl), ht.meaning_free (hforgets hl)]
      exact h.engines.read_eq site hsite hshown
    · by_cases hr : t.Forgets site.place
      · rw [hs.meaning_free (hforgets' hr), ht.meaning_free (.inr hr)]
        exact h.engines.read_eq site hsite hshown
      · rw [Settles.meaning_kept h.engines.left hs hsite hl,
          Settles.meaning_kept h.engines.right ht hsite hr]
        exact h.engines.sites site hsite hshown v v'
          (hv.earlier hs.weakens.context ht.weakens.context)

end Abreast

end Frame

/-! The operands. -/

/-- Where taint is tracked, the registers of the address of an operand are not tainted. -/
def Comparison.Addressed (k : Comparison) (taint : Taint) : Operand → Prop
  | .memory access => k.tracked = true →
      taint.isOptional access.base = false ∧ taint.isOptional access.index = false
  | _ => True

namespace Abreast

open Simulation

variable {k : Comparison} {taint : Taint} {s t s' t' : Frame}

/-- Two frames abreast whose operands may have been resolved. -/
structure Resolving (k : Comparison) (taint : Taint) (s t : Frame) : Prop where
  code : s.SameCode k.arch k.Names t
  sides : Frame.Abreast k (k.Hides taint) s t
  taint_eq : s.taint = taint
  addressed : ∀ op ∈ s.instruction.operands, k.Addressed taint op

namespace Resolving

section

variable (h : Resolving k taint s t)

include h

theorem frames : (abreast k).frames (s, t) s t := frames_self h.code (h.taint_eq ▸ h.sides)

theorem of_frames (hst : (abreast k).frames (s, t) s' t') : Resolving k taint s' t' := by
  obtain ⟨⟨pool, rfl⟩, ⟨pool', rfl⟩, hcode, habreast⟩ := hst
  have htaint : (s.withPool pool).taint = taint := h.taint_eq
  exact ⟨hcode, htaint ▸ habreast, htaint, h.addressed⟩

theorem addressLevel {access : Access} (hop : .memory access ∈ s.instruction.operands) :
    (abreast k).addressLevel (s, t) access = false := by
  have hregister : ∀ reg : Option Register,
      (k.tracked = true → taint.isOptional reg = false) →
      (abreast k).levelOptional (s, t) reg = false := by
    intro reg hreg
    cases reg with
    | none => rfl
    | some reg =>
      show (k.tracked && s.taint.isRegister reg) = false
      rw [h.taint_eq, Bool.and_eq_false_imp]
      exact hreg
  have haddressed := h.addressed _ hop
  unfold Simulation.addressLevel
  rw [hregister _ fun hk => (haddressed hk).1, hregister _ fun hk => (haddressed hk).2]
  rfl

theorem setAddress (i : Nat) (a : Address) :
    Step.Outcomes (abreast k).failed (fun _ _ => Resolving k taint)
      (setAddress i a s) (setAddress i a t) := by
  refine ⟨⟨h.code.archLeft, h.code.archRight, h.code.address, h.code.length, h.code.opcode, ?_, ?_⟩,
    { __ := h.sides }, h.taint_eq, ?_⟩
  · exact congrArg (List.modify · i _) h.code.operands
  · refine Operand.forall_mem_modify h.code.sources (fun op hop => ?_) i
    cases op <;> exact hop
  · refine Operand.forall_mem_modify h.addressed (fun op hop => ?_) i
    cases op <;> exact hop

theorem resolveOperand (i : Nat) :
    Step.Outcomes (abreast k).failed (fun _ _ => Resolving k taint)
      (resolveOperand i s) (resolveOperand i t) := by
  have hlevel : (abreast k).At (s, t) i fun op => ∀ access, op = .memory access →
      (abreast k).addressLevel (s, t) access = false := by
    rintro _ _ op ⟨⟨pool, rfl⟩, -⟩ hop access rfl
    exact h.addressLevel (List.mem_of_getElem? hop)
  have hread : (abreast k).Reads (s, t) (operand i >>= computedAddress)
      (operand i >>= computedAddress) (· = ·) := by
    refine (laws.operand i).bind fun op op' hop => ?_
    obtain rfl := hop.eq
    exact laws.computedAddress_eq hop.source (hop.at hlevel)
  rw [run_resolveOperand, run_resolveOperand]
  rcases (hread s t h.frames).cases with ⟨e, s', t', hs, ht, hout⟩ | ⟨a, _, s', t', hs, ht, hst, rfl⟩
  · rw [hs, ht]
    exact ⟨rfl, hout⟩
  · rw [hs, ht]
    have hnext := h.of_frames hst
    cases a with
    | none => exact hnext
    | some a => exact hnext.setAddress i a

end

theorem resolve : ∀ (l : List Nat) {s t : Frame}, Resolving k taint s t →
    Step.Outcomes (abreast k).failed (fun _ _ => Resolving k taint)
      (l.forM Step.resolveOperand s) (l.forM Step.resolveOperand t)
  | [], _, _, h => h
  | i :: l, s, t, h => by
    have hrun : ∀ s, (i :: l).forM Step.resolveOperand s =
        (Step.resolveOperand i >>= fun _ => l.forM Step.resolveOperand) s := fun s => rfl
    rw [hrun, hrun]
    exact (h.resolveOperand i).bind fun _ _ _ _ hnext => resolve l hnext

theorem resolveOperands (h : Resolving k taint s t) :
    Step.Outcomes (abreast k).failed (fun _ _ => Resolving k taint)
      (resolveOperands s) (resolveOperands t) := by
  have hrun : ∀ s : Frame, Step.resolveOperands s =
      (List.range s.instruction.operands.length).forM Step.resolveOperand s := fun s => rfl
  rw [hrun, hrun, ← h.code.operands]
  exact resolve _ h

end Resolving

/-! Whole instructions. -/

theorem action {w : Frame × Frame} {action : Step (Option Fault)} {opcode : Nat}
    (hk : k.tracked = false) (haction : k.arch.semantics? opcode = some action) :
    (abreast k).Ends w action action := by
  have htarget : ∀ {dst}, k.Names dst → k.Writes dst := by
    intro dst hdst
    cases dst with
    | immediate imm => trivial
    | memory access => trivial
    | register reg => exact ⟨hdst, fun htracked => Bool.noConfusion (hk.symm.trans htracked)⟩
  obtain ⟨op, hx86, -, rfl⟩ | ⟨op, -, -, rfl⟩ := semantics?_cases haction
  · have hlevel : ∀ op, (abreast k).level w op = false := by
      intro op
      show (k.tracked && _) = false
      rw [hk]
      rfl
    refine X86.Op.execute_alike laws (.of_flat laws covers (flat hk) (fun _ => trivial) htarget ?_
      (fun _ => stackOpen (hlevel _)) (fun _ => rotationCount hk) fun _ => False.elim) covers hx86
      hlevel
    exact fun _ _ _ _ _ _ htracked => Bool.noConfusion (hk.symm.trans htracked)
  · exact AArch64.Op.execute_ends laws covers
      (.of_flat laws (flat hk) (fun _ => trivial) (fun i _ => .of_source laws htarget i) False.elim)

theorem execute (hk : k.tracked = false) (h : Resolving k taint s t) :
    Step.Outcomes (abreast k).failed (fun a b s t => (abreast k).final s t ∧ a = b)
      (execute s) (execute t) := by
  rw [run_execute, run_execute, ← h.code.opcode, h.code.archLeft, h.code.archRight]
  cases haction : k.arch.semantics? s.instruction.opcode with
  | none => exact ⟨laws.final h.frames, rfl⟩
  | some action =>
    refine h.resolveOperands.bind fun _ _ s₁ t₁ hresolved => ?_
    exact Abreast.action hk haction s₁ t₁ hresolved.frames

end Abreast

theorem Engine.Abreast.start (h : e.Abreast k (k.Hides e.taint) e')
    (hoperands : ∀ op ∈ inst.operands, k.Names op ∧ k.Addressed e.taint op) :
    Abreast.Resolving k e.taint (start ⟨e, inst⟩) (start ⟨e', inst⟩) where
  code := ⟨h.left.arch, h.right.arch, rfl, rfl, rfl, rfl, fun op hop => (hoperands op hop).1⟩
  sides := ⟨h, fun id hid => (Array.not_mem_empty id hid).elim,
    fun id hid => (Array.not_mem_empty id hid).elim, fun _ => rfl, fun _ => ⟨rfl, rfl, rfl⟩⟩
  taint_eq := rfl
  addressed op hop := (hoperands op hop).2

/-- Where control goes after an instruction. -/
def Instruction.control (inst : Instruction) : Bool × Bool × Address :=
  (inst.branch, inst.taken, inst.next)

/-- Engines abreast process an instruction with one result, to engines abreast. -/
theorem Engine.Abreast.process {hidden : Place → Prop} (hk : k.tracked = false)
    (h : e.Abreast k hidden e') (hshown : ∀ place, ¬ hidden place)
    (hoperands : ∀ op ∈ inst.operands, k.Names op) :
    answer (process ⟨e, inst⟩) = answer (process ⟨e', inst⟩) ∧
      (after (process ⟨e, inst⟩)).instruction.control =
        (after (process ⟨e', inst⟩)).instruction.control ∧
      (after (process ⟨e, inst⟩)).engine.Abreast k hidden (after (process ⟨e', inst⟩)).engine := by
  have hnot : ∀ {p : Prop}, k.tracked = true → p := fun htracked =>
    Bool.noConfusion (hk.symm.trans htracked)
  have hstart : Abreast.Resolving k e.taint (Frame.start ⟨e, inst⟩) (Frame.start ⟨e', inst⟩) := by
    refine (h.mono fun place hh => (hshown place hh).elim).start fun op hop => ?_
    exact ⟨hoperands op hop, by cases op <;> first | trivial | exact hnot⟩
  rw [run_process, run_process, run_bind, run_bind]
  rcases (Abreast.execute hk hstart).cases with
    ⟨error, s, t, hs, ht, habreast⟩ | ⟨fault, _, s, t, hs, ht, habreast, rfl⟩
  · rw [hs, ht]
    obtain ⟨hbranch, htaken, hnext⟩ := habreast.control hk
    refine ⟨rfl, ?_, habreast.engines.mono fun _ hh => hnot hh⟩
    simp only [after, Instruction.control, hbranch, htaken, hnext]
  · rw [hs, ht]
    obtain ⟨s', hs', hsettles⟩ := run_settle habreast.leftListed fault
    obtain ⟨t', ht', hsettles'⟩ := run_settle habreast.rightListed fault
    obtain ⟨hbranch, htaken, hnext⟩ := habreast.control hk
    simp only [hs', ht']
    refine ⟨rfl, ?_, (habreast.settle hsettles hsettles').mono fun _ hh => hnot hh.1⟩
    simp only [after, Instruction.control, hsettles.branch, hsettles.taken, hsettles.next,
      hsettles'.branch, hsettles'.taken, hsettles'.next, hbranch, htaken, hnext]

end Concolic
