import Concolic.Proofs.Noninterference
import Concolic.Proofs.Pruning
import Concolic.Proofs.Shifts

/-
  Where taint goes.

  An assignment writes a destination, determines its taint, and stamps the new expression
  with it. Every step of an instruction keeps the stamps of its expressions and the taint
  of the places bound to them alike (`Frame.stamping_steps`), and so does its processing
  (`stamps_are_taints`). An operation on one operand sets no taint, so its operand has to
  be tainted in every place or in none: a byte that is not tainted is otherwise bound to a
  tainted expression (`stamp_covers_untainted_byte`).

  A flag is a destination too. It takes the taint of what its new value is computed from,
  also where it keeps the old one (`shift_by_zero_untaints_carry`).
-/

namespace Concolic

open Step X86

namespace Frame

variable {s s' s₀ : Frame} {dst : Operand} {i : Option Nat} {id first : Nat} {b : Bool}
  {taint : Taint} {marks : Nat → Option Bool}

/-! What is bound and how it is stamped. -/

/-- The taint that an expression is stamped with. -/
def stamps (s : Frame) (id : Nat) : Option Bool :=
  s.symbolic.expressions[id]?.map Expression.tainted

theorem lt_of_stamps (h : s.stamps id = some b) : id < s.symbolic.expressions.size := by
  obtain ⟨x, hx, -⟩ := Option.map_eq_some_iff.1 h
  exact (getElem?_eq_some_iff.1 hx).1

/-- With these taints and stamps, what a place is bound to has the taint of the place, if its
number is `first` or a later one. The zero register is not bound to such. -/
def Agrees (s : Frame) (first : Nat) (taint : Taint) (marks : Nat → Option Bool) : Prop :=
  ∀ (place : Place) (cell : Cell), s.symbolic.cell? place = some cell →
    first ≤ cell.expression → ¬ s.arch.Discards place ∧
      cell.expression < s.symbolic.expressions.size ∧
      marks cell.expression = some (taint.isPlace place)

abbrev Stamped (s : Frame) (first : Nat) : Prop := s.Agrees first s.taint s.stamps

theorem Records.stamps {f : Formula} {origin : Origin} {comment : String} {m : Machine}
    (h : s.Records f origin comment m s') (hid : s.stamps id = some b) : s'.stamps id = some b := by
  have hne := (lt_of_stamps hid).ne
  unfold Frame.stamps
  rw [h.updates.expressions, if_neg hne.symm, assigned, Engine.expressions_assign,
    Array.getElem?_push, if_neg hne]
  exact hid

section

variable (h : s.Writes dst i s')

include h

theorem Writes.cell (hdst : dst.Known) {place : Place} {cell : Cell}
    (hcell : s'.symbolic.cell? place = some cell) :
    (i = some cell.expression ∧ dst.Covers place ∧ ¬ s.arch.Discards place) ∨
      (s.symbolic.cell? place = some cell ∧
        (dst.Covers place → s.arch.Discards place)) := by
  cases h with
  | dropped dst_eq zero =>
    subst dst_eq
    exact .inr ⟨hcell, Architecture.discards_of_isZeroRegister zero hdst⟩
  | recorded quiet stores records written =>
    obtain ⟨pool, array, rfl⟩ := quiet
    by_cases hplace : dst.Covers place
    · have hcovers := written.covers.1 hplace
      obtain ⟨byte, hbound⟩ := Symbolic.cell?_bindOrigin_of_covers hcovers
      obtain rfl := Option.some.inj
        (hcell.symm.trans ((records.updates.cell? place).trans (hbound _ _ _)))
      exact .inl ⟨rfl, hplace, stores.not_discards hcovers⟩
    · rw [(records.sameAt stores fun hcovers => hplace (written.covers.2 hcovers)).cell] at hcell
      exact .inr ⟨hcell, fun hcovers => absurd hcovers hplace⟩

theorem Writes.stamps (hid : s.stamps id = some b) : s'.stamps id = some b := by
  cases h with
  | dropped => exact hid
  | recorded quiet _ records _ =>
    obtain ⟨pool, array, rfl⟩ := quiet
    exact records.stamps hid

theorem Writes.ne (hid : id < s.symbolic.expressions.size) : i ≠ some id := by
  cases h with
  | dropped => exact (Option.some_ne_none id).symm
  | recorded quiet _ _ _ =>
    obtain ⟨pool, array, rfl⟩ := quiet
    exact fun heq => hid.ne (Option.some.inj heq).symm

theorem Writes.retains : s'.taint = s.taint ∧ s'.modes = s.modes := by
  cases h with
  | dropped => exact ⟨rfl, rfl⟩
  | recorded quiet _ records _ =>
    obtain ⟨pool, array, rfl⟩ := quiet
    rw [records.engine]
    exact ⟨rfl, rfl⟩

/-- What is written is no immediate, so that its taint can be set. -/
theorem Writes.run_setTaint (b : Bool) (s : Frame) : setTaint dst b s =
    .ok b { s with taint := (s.taint.setOperand b dst).2 } := by
  cases h with
  | dropped dst_eq => exact dst_eq ▸ rfl
  | recorded _ _ _ written =>
    cases dst with
    | immediate imm => exact written.elim
    | register reg => rfl
    | memory access => rfl

/-- After a write, its places agree with the stamp and the taint that they are to have. -/
theorem Writes.agrees (hdst : dst.Known) (hs : s.Agrees first taint marks) (b : Bool) :
    s'.Agrees first (taint.setOperand b dst).2
      fun id => if i = some id then some b else marks id := by
  have hfollows := h.follows
  intro place cell hcell hfirst
  show _ ∧ _ ∧ (if i = some cell.expression then some b else marks cell.expression) = _
  rw [Taint.isPlace_setOperand, hfollows.arch]
  rcases h.cell hdst hcell with ⟨hi, hcovers, hplace⟩ | ⟨hcell, hplace⟩
  · exact ⟨hplace, h.bound _ hi, by rw [if_pos hi, if_pos hcovers]⟩
  · obtain ⟨hkept, hlt, hstamp⟩ := hs place cell hcell hfirst
    refine ⟨hkept, hlt.trans_le hfollows.grows.size_le, ?_⟩
    rw [if_neg (h.ne hlt), if_neg fun hcovers => hkept (hplace hcovers)]
    exact hstamp

end

/-- A stamp is on its expression, and changes nothing else. -/
structure Marks (s : Frame) (i : Option Nat) (b : Bool) (s' : Frame) : Prop where
  arch : s'.arch = s.arch
  taint : s'.taint = s.taint
  cell : ∀ place, s'.symbolic.cell? place = s.symbolic.cell? place
  size : s'.symbolic.expressions.size = s.symbolic.expressions.size
  stamps : ∀ id, s'.stamps id = if i = some id then (s.stamps id).map fun _ => b else s.stamps id

theorem of_stamp_eq_ok {u : Unit} (hrun : stamp i b s = .ok u s') : s.Marks i b s' := by
  cases i with
  | none =>
    cases hrun
    exact ⟨rfl, rfl, fun _ => rfl, rfl, fun _ => rfl⟩
  | some id =>
    replace hrun : exec (Engine.modifySymbolic fun symbolic => symbolic.setTainted id b) s =
      .ok u s' := hrun
    rw [run_modifySymbolic, Symbolic.setTainted] at hrun
    rcases s.symbolic.update_cases id fun e => { e with tainted := b } with
      ⟨-, symbolic, hupdate, hs⟩ | ⟨-, hupdate⟩
    · rw [hupdate] at hrun
      cases hrun
      refine ⟨rfl, rfl, hs.cell?, hs.size, fun other => ?_⟩
      unfold Frame.stamps
      simp only [hs.expressions, Option.some.injEq]
      split
      · rw [Option.map_map, Option.map_map]
        rfl
      · rfl
    · rw [hupdate] at hrun
      cases hrun

theorem Marks.kept (h : s.Marks i b s') {c : Bool} (hid : s.stamps id = some c)
    (hne : i ≠ some id) : s'.stamps id = some c := by
  rw [h.stamps, if_neg hne, hid]

theorem Marks.marked (h : s.Marks (some id) b s')
    (hid : id < s.symbolic.expressions.size) : s'.stamps id = some b := by
  rw [h.stamps, if_pos rfl, Frame.stamps, Array.getElem?_eq_getElem hid]
  rfl

/-- Once the taints are set and the expressions stamped as they are to be, what is bound is
stamped with the taint of its place. -/
theorem Agrees.stamped (h : s.Agrees first taint marks)
    (harch : s'.arch = s.arch)
    (hcell : ∀ place, s'.symbolic.cell? place = s.symbolic.cell? place)
    (htaint : ∀ place, s'.taint.isPlace place = taint.isPlace place)
    (hstamps : ∀ id b, id < s.symbolic.expressions.size → marks id = some b →
      s'.stamps id = some b) : s'.Stamped first := by
  intro place cell hbound hfirst
  rw [hcell] at hbound
  obtain ⟨hkept, hlt, hstamp⟩ := h place cell hbound hfirst
  have hstamp' := hstamps _ _ hlt hstamp
  exact ⟨harch ▸ hkept, lt_of_stamps hstamp', by rw [hstamp', htaint]⟩

/-- One write, with the taint that its expression is stamped with. -/
theorem Writes.stamped {s₁ s₂ : Frame} (hwrites : s.Writes dst i s₁) (hdst : dst.Known)
    (h : s.Stamped first) (hmarks : s₂.Marks i b s')
    (hengine : s₂.engine = { s₁.engine with taint })
    (htaint : ∀ place, taint.isPlace place = (s.taint.setOperand b dst).2.isPlace place) :
    s'.Stamped first := by
  have hsymbolic : s₂.symbolic = s₁.symbolic := by rw [hengine]
  have hstamps : s₂.stamps = s₁.stamps := by
    unfold Frame.stamps
    rw [hsymbolic]
  refine (hwrites.agrees hdst h b).stamped
    (by rw [hmarks.arch, hengine]) (fun place => by rw [hmarks.cell, hsymbolic])
    (fun place => by rw [hmarks.taint, hengine]; exact htaint place) fun id c hlt hid => ?_
  rw [← hsymbolic] at hlt
  split at hid
  · next hi =>
    subst hi
    exact (hmarks.marked hlt).trans hid
  · next hi => exact hmarks.kept (hstamps ▸ hwrites.stamps hid) hi

/-! Every instruction. -/

/-- What an instruction keeps up from its start: what it makes is stamped with the taint of
the places that are bound to it. -/
def stamping (s₀ : Frame) : Upkeep where
  start := s₀
  words := False
  bytes := False
  uneven := False
  holds s := s.Stamped s₀.symbolic.expressions.size
  final s := s.Stamped s₀.symbolic.expressions.size
  failed _ := True

section

variable {src : Operand} {f g : Formula} {comment : String} (h : s₀.stamping.Held s)

include h

theorem stamping_bare : s₀.bare.Held s :=
  ⟨⟨h.arch, h.modes, h.widens, h.grounded⟩, h.operands, trivial⟩

theorem writes_of_write {s₁ : Frame} (hdst : dst.Known)
    (hf : f.Proper s.scope False) (hrun : write dst f comment s = .ok i s₁) :
    s₀.bare.Held s₁ ∧ s.Writes dst i s₁ := by
  have hyields := s₀.bare_laws.write (stamping_bare h) hdst hf comment
  rwa [hrun] at hyields

theorem of_assign_eq_ok {x : Step Bool} (hdst : dst.Known)
    (hf : f.Proper s.scope False) (hrun : assign dst f comment x s = .ok b s') :
    ∃ i s₁ s₂, s.Writes dst i s₁ ∧ x s₁ = .ok b s₂ ∧ s₂.Marks i b s' := by
  obtain ⟨i, s₁, hwrite, hrun⟩ := of_bind_eq_ok hrun
  obtain ⟨c, s₂, hx, hrun⟩ := of_bind_eq_ok hrun
  obtain ⟨_, s₃, hstamp, hrun⟩ := of_bind_eq_ok hrun
  cases hrun
  exact ⟨i, s₁, s₂, (writes_of_write h hdst hf hwrite).2, hx, of_stamp_eq_ok hstamp⟩

omit h in
theorem stamping_does {α : Type} {x : Step α} (hx : s₀.bare.Does s x)
    (hstamped : ∀ a s', x s = .ok a s' → s'.Stamped s₀.symbolic.expressions.size) :
    s₀.stamping.Does s x := by
  unfold Upkeep.Does at hx ⊢
  cases hrun : x s with
  | ok a s' =>
    rw [hrun] at hx
    obtain ⟨h, hfollows⟩ := hx
    exact ⟨⟨⟨h.arch, h.modes, h.widens, h.grounded⟩, h.operands, hstamped a s' hrun⟩,
      hfollows⟩
  | error e s' =>
    rw [hrun] at hx
    exact ⟨⟨hx.arch, hx.modes, hx.widens, hx.grounded⟩, trivial⟩

/-- Two writes that may overlap: a place in both has the taint of the second, and is bound to
what was recorded for it. -/
theorem stamped_exchange (hdst : dst.Known) (hsrc : src.Known)
    (hf : f.Proper s.scope False) (hg : g.Proper s.scope False)
    {b c : Bool} {u : Unit} (hrun : Step.exchange dst src f g comment b c s = .ok u s') :
    s'.Stamped s₀.symbolic.expressions.size := by
  obtain ⟨i, s₁, hwrite, hrun⟩ := of_bind_eq_ok hrun
  obtain ⟨j, s₂, hwrite', hrun⟩ := of_bind_eq_ok hrun
  obtain ⟨b', s₃, hset, hrun⟩ := of_bind_eq_ok hrun
  obtain ⟨c', s₄, hset', hrun⟩ := of_bind_eq_ok hrun
  obtain ⟨_, s₅, hstamp, hstamp'⟩ := of_bind_eq_ok hrun
  obtain ⟨h₁, hwrites⟩ := writes_of_write h hdst hf hwrite
  have hyields := s₀.bare_laws.write h₁ hsrc (hg.mono hwrites.follows.widens.scope) comment
  rw [hwrite'] at hyields
  have hwrites' := hyields.2
  rw [hwrites.run_setTaint] at hset
  cases hset
  rw [hwrites'.run_setTaint] at hset'
  cases hset'
  have hmarks := of_stamp_eq_ok hstamp
  have hmarks' := of_stamp_eq_ok hstamp'
  refine (hwrites'.agrees hsrc (hwrites.agrees hdst h.holds b) c).stamped (hmarks'.arch.trans hmarks.arch)
    (fun place => (hmarks'.cell place).trans (hmarks.cell place)) (fun place => ?_)
    fun id d hlt hid => ?_
  · rw [hmarks'.taint, hmarks.taint]
    show ((s₂.taint.setOperand b dst).2.setOperand c src).2.isPlace place = _
    rw [hwrites'.retains.1, hwrites.retains.1]
  · split at hid
    · next hj =>
      subst hj
      exact (hmarks'.marked (hmarks.size ▸ hlt)).trans hid
    · next hj =>
      refine hmarks'.kept ?_ hj
      split at hid
      · next hi =>
        subst hi
        exact (hmarks.marked hlt).trans hid
      · next hi => exact hmarks.kept (hwrites'.stamps (hwrites.stamps hid)) hi

end

theorem stamping_steps (s₀ : Frame) : s₀.stamping.Steps where
  words := id
  bytes := False.elim
  final h := h.holds
  failed _ := trivial
  quiet h hs := by
    obtain ⟨pool, array, rfl⟩ := hs
    exact h.holds
  fresh h _ := h.holds
  steer _ _ _ _ _ h _ := ⟨h.holds, trivial⟩
  set {s dst f} comment b h hdst hf := by
    refine stamping_does (s₀.bare_laws.steps.set comment b (stamping_bare h) hdst hf)
      fun a s' hrun => ?_
    obtain ⟨i, s₁, s₂, hwrites, hset, hmarks⟩ := of_assign_eq_ok h hdst hf hrun
    rw [hwrites.run_setTaint] at hset
    cases hset
    exact hwrites.stamped hdst h.holds hmarks rfl fun place => by rw [hwrites.retains.1]
  keep {s dst f} comment h hdst heven hf := by
    refine stamping_does (s₀.bare_laws.steps.keep comment (stamping_bare h) hdst (.inl trivial) hf)
      fun a s' hrun => ?_
    obtain ⟨i, s₁, s₂, hwrites, hlook, hmarks⟩ := of_assign_eq_ok h hdst hf hrun
    cases hlook
    refine hwrites.stamped hdst h.holds hmarks rfl fun place => ?_
    obtain ⟨htaint, hmodes⟩ := hwrites.retains
    rw [Taint.isPlace_setOperand, Engine.pointerTaint, htaint, hmodes]
    split
    · next hcovers => exact heven.resolve_left id place hcovers
    · rfl
  exchange comment b c h hdst hsrc hf hg :=
    stamping_does (s₀.bare_laws.steps.exchange comment b c (stamping_bare h) hdst hsrc hf hg)
      fun _ _ hrun => stamped_exchange h hdst hsrc hf hg hrun
  volatile {s f} comment b h hf := by
    refine stamping_does (s₀.bare_laws.steps.volatile comment b (stamping_bare h) hf)
      fun a s' hrun => ?_
    obtain ⟨s₁, hrecord, -, hrecords⟩ :=
      s₀.bare_laws.recorded (stamping_bare h) hf rfl .volatile comment
    rw [run_volatile, run_bind, hrecord] at hrun
    have hmarks := of_stamp_eq_ok hrun
    refine Agrees.stamped h.holds (hmarks.arch.trans hrecords.keeps.arch)
      (fun place => ?_) (fun place => ?_) fun id c hlt hid => ?_
    · rw [hmarks.cell]
      exact (hrecords.sameAt .volatile fun hcovers => hcovers).cell
    · rw [hmarks.taint, hrecords.engine]
      rfl
    · exact hmarks.kept (hrecords.stamps hid) fun heq => hlt.ne (Option.some.inj heq).symm

/-- The operands are even in the frame in which their addresses are computed if they are in
the one before. -/
theorem stamping_opens {s s₁ : Frame} (hresolve : resolveOperands s.start = .ok () s₁)
    (heven : s.arch.isX86 = true → ∀ op, X86.operation? s.instruction.opcode = some op →
      op.rereads = true → ∀ dst, s₁.instruction.operands[0]? = some dst → s.Even dst) :
    s.start.stamping.alone.Opens s₁ s.instruction.opcode where
  target _ := id
  whole hx op hop hrereads := by
    rintro s' - dst ⟨-, hrests, -⟩ hdst
    rw [hrests.instruction] at hdst
    have hsolid := retains_iff.1 retains_resolveOperands s.start
    rw [hresolve] at hsolid
    simp only [after, Engine.solid, Prod.mk.injEq] at hsolid
    refine .inr fun place hcovers => ?_
    rw [Engine.pointerTaint, hsolid.2.1, hsolid.2.2.2]
    exact heven hx op hop hrereads dst hdst place hcovers
  explicit _ _ _ i _ := .of_source s.start.stamping_steps.diagonal.laws id i

end Frame

/-- **Stamps are the taint of what is bound.** In every engine that operations lead to, after an
instruction that does not fail, what it made and is bound to a place still is stamped with
the taint of the place, exchanges and slots of the stack included. An operation that leaves
the taint of the operand that it writes has to find it even. -/
theorem stamps_are_taints {arch : Architecture} {modes : Modes} {e : Engine}
    {given : List Formula} (hturns : Engine.Turns False { arch, modes } [] e given)
    {inst : Instruction} (hknown : ∀ op ∈ inst.operands, op.Known)
    (heven : e.arch.isX86 = true → ∀ op, X86.operation? inst.opcode = some op →
      op.rereads = true → ∀ dst, (e.operands inst)[0]? = some dst → Frame.Even ⟨e, inst⟩ dst)
    {fault : Option Fault} {s : Frame} (hrun : Step.process ⟨e, inst⟩ = .ok fault s)
    {place : Place} {cell : Cell} (hcell : s.symbolic.cell? place = some cell)
    (hmade : e.symbolic.expressions.size ≤ cell.expression) :
    ∃ x, s.symbolic.expressions[cell.expression]? = some x ∧
      x.tainted = s.taint.isPlace place := by
  have hgrounded := (hturns.kept (.start False arch modes)).1.grounded
  have hsteps := (Frame.start ⟨e, inst⟩).stamping_steps
  have hheld : (Frame.start ⟨e, inst⟩).stamping.Held (Frame.start ⟨e, inst⟩) := by
    refine ⟨⟨rfl, rfl, .refl _, hgrounded⟩, hknown, fun place cell hcell hfirst => ?_⟩
    obtain ⟨x, hx, -⟩ := Symbolic.Grounded.covers hgrounded (congrArg (Option.map _) hcell)
    exact absurd (getElem?_eq_some_iff.1 hx).1 (Nat.not_lt.2 hfirst)
  have hfinal := hsteps.execute (fun h => h.holds) hheld fun s₁ hresolve =>
    Frame.stamping_opens hresolve fun hx op hop hrereads dst hdst => by
      refine heven hx op hop hrereads dst ?_
      rw [Engine.operands, Frame.resolved, hresolve]
      exact hdst
  obtain ⟨u, hu, -, hsettles⟩ :=
    Frame.of_process_eq_ok (s := ⟨e, inst⟩) id False.elim hknown hgrounded hrun
  rw [hu] at hfinal
  obtain ⟨-, -, hstamp⟩ := hfinal.final place cell (hsettles.symbolic.toFewer.cell? hcell) hmade
  rw [hsettles.symbolic.expressions, hsettles.engine]
  exact Option.map_eq_some_iff.1 hstamp

/-- A new engine in which two bytes are tainted. -/
def evenlyTainted : Engine := (Engine.new .x86_64).tainted (.fixed 0x1000 16) 0

/-- The two bytes are incremented, and bound to an expression that is tainted as they are. -/
theorem stamps_are_taints_increment : ∃ s x,
    Step.process ⟨evenlyTainted, onMemory 39 16⟩ = .ok none s ∧
    s.symbolic.cell? (.byte 0x1001) = some ⟨0, 1⟩ ∧
    s.symbolic.expressions[0]? = some x ∧
      x.tainted = s.taint.isPlace (.byte 0x1001) := by
  obtain ⟨s, hrun, hcell⟩ : ∃ s, Step.process ⟨evenlyTainted, onMemory 39 16⟩ = .ok none s ∧
      s.symbolic.cell? (.byte 0x1001) = some ⟨0, 1⟩ := Step.exists_frame (by decide +kernel)
  have hturns : Engine.Turns False (.new .x86_64) [] evenlyTainted _ :=
    Engine.turns_run _ _ _ [.setMemory 0x1000 [0], .retaint fun t =>
      (true, t.setAccess (.fixed 0x1000 16) true)] (by simp [Action.Known])
  have hknown : ∀ op ∈ (onMemory 39 16).operands, op.Known := by
    intro op hop
    obtain rfl : op = .memory (.fixed 0x1000 16) := List.mem_singleton.1 hop
    exact Operand.known_fixed _ _
  have heven : ∀ dst, (evenlyTainted.operands (onMemory 39 16))[0]? = some dst →
      Frame.Even ⟨evenlyTainted, onMemory 39 16⟩ dst := by
    intro dst hdst place hcovers
    have hoperand : (evenlyTainted.operands (onMemory 39 16))[0]? =
      some (.memory (.fixed 0x1000 16)) := by decide +kernel
    obtain rfl := Option.some.inj (hdst.symm.trans hoperand)
    have hall : evenlyTainted.taint.isOperand evenlyTainted.pointerTaint
      (.memory (.fixed 0x1000 16)) = true := by decide +kernel
    refine Eq.trans ?_ hall.symm
    cases place with
    | root key => exact hcovers.elim
    | byte address => exact (Taint.isByte_setAccess _ _ _ _).trans (if_pos hcovers)
  obtain ⟨x, hx, htainted⟩ := stamps_are_taints hturns hknown (fun _ _ _ _ => heven) hrun hcell
    (Nat.zero_le _)
  exact ⟨s, x, hrun, hcell, hx, htainted⟩

/-- An increment of the two bytes: the byte that is not tainted is bound to the new
expression, which is. -/
theorem stamp_covers_untainted_byte : ∃ (fault : Option Fault) (s : Frame),
    Step.process ⟨partlyTainted 0xff, onMemory 39 16⟩ = .ok fault s ∧
      s.symbolic.memory[(0x1001 : Address)]?.map Cell.expression = some 0 ∧
      0 ∈ s.instruction.expressions.toList ∧
      s.symbolic.expressions[0]?.map Expression.tainted = some true ∧
      s.taint.isByte 0x1001 = false := by
  refine ⟨none, _, Step.eq_ok_of_answer ?_, ?_, ?_, ?_, ?_⟩ <;> decide +kernel

/-- An engine on which some roots are tainted. -/
def taintedRoots (arch : Architecture) (ids : List Nat) : Engine :=
  { arch, modes := .initial, taint := { registers := .ofList ids } }

/-- A shift of a byte by no place. -/
def shiftNowhere : Instruction :=
  .decoded 0x400000 4 92 [.register X86.accumulatorByte, .immediate (.ofValue 0 8)] ""

/-- With a destination that is not tainted, a shift by no place leaves the carry flag its
value and takes its taint. -/
theorem shift_by_zero_untaints_carry :
    (taintedRoots .x86_64 [X86.cf]).arch.isX86 = true ∧
    (taintedRoots .x86_64 [X86.cf]).modes.isOn .concretizeUndefinedRegisters = false ∧
    X86.operation? shiftNowhere.opcode = some (X86.Motion.shift .left).op ∧
    shiftNowhere.places .x86_64 (taintedRoots .x86_64 [X86.cf]).machine 8 = 0 ∧
    (taintedRoots .x86_64 [X86.cf]).taint.isPlace (.root X86.cf) = true ∧
    ∃ s', Step.process ⟨taintedRoots .x86_64 [X86.cf], shiftNowhere⟩ = .ok none s' ∧
      s'.machine.flag .x86_64 X86.cf =
        (taintedRoots .x86_64 [X86.cf]).machine.flag .x86_64 X86.cf ∧
      s'.taint.isPlace (.root X86.cf) = false := by
  refine ⟨rfl, by decide +kernel, by decide +kernel, by decide +kernel, by decide +kernel, ?_⟩
  exact Step.exists_frame (by decide +kernel)

end Concolic
