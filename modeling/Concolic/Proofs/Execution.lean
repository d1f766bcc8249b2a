import Concolic.Proofs.Coherence
import Concolic.Proofs.Lockstep.Memory
import Concolic.Proofs.Lockstep.Run

/-
  What an instruction computes on the machine.

  The machine that an instruction starts from says what the instruction reads in its
  operands (`Instruction.placed`, `Instruction.operandValue`). Along the run of the
  instruction, in an engine that is shown by a view, the formulas that are built give
  the values that are computed, and what is written is what the formulas give. So a
  part of an instruction is known by what it does to the machine: `S.Runs m x m' post`
  says that from a machine like `m` it goes on to one like `m'`. A run from a coherent
  engine leads to a coherent engine (`Engine.process_completes`).
-/

namespace Concolic

open Step Word Machine Instruction Formula View Architecture Concolic.Frame Engine Symbolic

variable {access : Access} {e : Engine} {f target : Formula} {s : Frame} {inst : Instruction}
  {i id n value width : Nat} {dst op : Operand} {reg : Register} {comment : String} {V : View}
  {machine : Machine} {origin : Origin} {action : Step (Option Fault)} {taint : Step Bool}
  {x : Step Unit}

/-! What an instruction reads. -/

namespace Instruction

variable (inst : Instruction) (arch : Architecture) (m : Machine)

/-- The value of a register for the instruction: zero of a zero register, and of the
program counter the one that the instruction sees. -/
def registerValue (reg : Register) : Nat :=
  if arch.isZeroRegister reg then 0
  else if arch.isProgramCounter reg then truncate reg.bits (counterValue arch inst).toNat
  else m.register reg

def partValue : Option Register → Nat
  | some reg => inst.registerValue arch m reg
  | none => 0

/-- The address of an access: base, index times scale and displacement, in the width of
addresses. -/
def addressOf (access : Access) : Address :=
  if access.isComputed then
    (Word.wrap arch.addressWidth (access.displacement.toInt + inst.partValue arch m access.base +
      inst.partValue arch m access.index * (max access.scale 1 : Nat))).toUInt64
  else access.address

def placed : Operand → Operand
  | .memory access => .memory { access with address := inst.addressOf arch m access }
  | op => op

/-- The value of an operand, in a width that an immediate is brought to. -/
def operandValue (width : Nat) : Operand → Nat
  | .immediate imm => imm.sized width
  | .register reg => inst.registerValue arch m reg
  | .memory access => m.accessValue access

end Instruction

/-- The machine with a new value of a destination; a zero register keeps none. -/
def Machine.store (m : Machine) (arch : Architecture) (dst : Operand) (value : Nat) : Machine :=
  match dst with
  | .immediate _ => m
  | .register reg => if arch.isZeroRegister reg then m else m.setRegister reg value
  | .memory access => m.setValue access.address access.bytes value

/-- The operand is a value of `width` bits, or an immediate, which is brought to it. -/
def Operand.Fits (arch : Architecture) (width : Nat) : Operand → Prop
  | .immediate _ => True
  | .register reg => arch.Has reg ∧ reg.bits = width
  | .memory access => access.bits = width ∧ width % 8 = 0

/-- The operand is a register or memory of `width` bits. -/
def Operand.Target (arch : Architecture) (width : Nat) (op : Operand) : Prop :=
  op.Fits arch width ∧ op.immediate? = none

/-- The address of the operand can be computed: its registers are the architecture's, and
it has whole bytes. -/
def Operand.Resolves (arch : Architecture) : Operand → Prop
  | .memory access => access.Suits arch False ∧
      (access.isComputed = true → access.bits ≠ 0 ∧ access.bits % 8 = 0)
  | _ => True

theorem Architecture.isRoot_programCounter (arch : Architecture) :
    arch.programCounter.isRoot = true := by
  cases arch <;> rfl

theorem Architecture.isZeroRegister_programCounter (arch : Architecture) :
    arch.isZeroRegister arch.programCounter = false := by
  cases arch <;> rfl

/-! One run of a write. -/

/-- The machine with the program counter past the instruction. -/
abbrev Machine.past (m : Machine) (arch : Architecture) (inst : Instruction) : Machine :=
  m.setRegister arch.programCounter (truncate arch.programCounter.bits inst.fallThrough.toNat)

namespace Step

/-- What a write to memory records, unless memory is one array. -/
theorem run_write_memory (harray : s.modes.isOn .memoryArray = false)
    (hbits : f.width = access.bits) (hwhole : access.bits % 8 = 0) (comment : String) :
    ∃ s', write (.memory access) f comment s = .ok (some s.symbolic.expressions.size) s' ∧
      s.Records f (.memory access) comment
        (s.machine.setValue access.address access.bytes (s.evaluate f)) s' := by
  have hcheck : checkOrigin f (.memory access) = .ok () := by
    simp [checkOrigin, hbits, hwhole]
  obtain ⟨s', hs', hrecord⟩ := run_recordNew s f (.memory access) comment
    (s.machine.setValue access.address access.bytes (s.evaluate f))
  refine ⟨s', ?_, hs'⟩
  show (writeMemory access f comment >>= fun id => pure (some id)) s = _
  rw [run_bind, run_writeMemory hbits comment harray, hcheck]
  simp only [hrecord]
  rfl

/-- The end of an instruction that is no branch sets the program counter, and nothing else
in the machine. -/
theorem run_advance (s : Frame) :
    ∃ s', advance s = .ok () { s' with instruction := { s'.instruction with
        branch := false, taken := false, next := s.instruction.fallThrough } } ∧
      s.Keeps s' ∧ s'.machine = s.machine.past s.arch s.instruction ∧
      s'.taint = s.taint.setRegister s.arch.programCounter false := by
  have hpc := s.arch.programCounter_has
  have hrun : advance s = (exec (Exec.build (Build.constant
      s.instruction.fallThrough.toNat s.arch.programCounter.bits)) >>= fun f =>
        writeRegister s.arch.programCounter.id f "Program Counter" false >>= fun _ =>
          setNext false false s.instruction.fallThrough) s := rfl
  obtain ⟨pool, hbuild⟩ := run_build (s := s) (.constant hpc.wordWidth
    s.instruction.fallThrough.toNat)
  obtain ⟨s', hwrite, hkeeps, hweakens, -, htaint⟩ := run_setRoot (s := s.withPool pool)
    (f := .constant (truncate s.arch.programCounter.bits
      s.instruction.fallThrough.toNat) s.arch.programCounter.bits)
    hpc s.arch.isRoot_programCounter s.arch.isZeroRegister_programCounter rfl
    "Program Counter" false
  refine ⟨s', ?_, (Keeps.withPool s pool).trans hkeeps, ?_, htaint⟩
  · rw [hrun, run_bind, hbuild]
    show (writeRegister _ _ _ _ >>= _) (s.withPool pool) = _
    rw [run_bind, hwrite]
    rfl
  · rw [hweakens.machine]
    have hvalue : (s.withPool pool).evaluate (.constant
        (truncate s.arch.programCounter.bits s.instruction.fallThrough.toNat)
        s.arch.programCounter.bits) =
        truncate s.arch.programCounter.bits s.instruction.fallThrough.toNat := by
      rw [Engine.evaluate, value_eq_eval]
      rfl
    rw [hvalue]
    rfl

theorem run_resolveOperands_of_fixed
    (h : ∀ op ∈ s.instruction.operands, ∀ access, op = .memory access →
      access.isComputed = false) : resolveOperands s = .ok () s := by
  have hone : ∀ i < s.instruction.operands.length, resolveOperand i s = .ok () s := by
    intro i hi
    have hop := List.getElem?_eq_getElem hi
    have hcomputed : computedAddress s.instruction.operands[i] s = .ok none s := by
      have hfixed := h _ (List.getElem_mem hi)
      cases hsame : s.instruction.operands[i] with
      | memory access =>
        unfold computedAddress
        simp only [hfixed access hsame]
        rfl
      | _ => rfl
    rw [run_resolveOperand, run_bind, run_operand, hop]
    simp only [hcomputed]
  have hall : ∀ l : List Nat, (∀ i ∈ l, i < s.instruction.operands.length) →
      l.forM resolveOperand s = .ok () s := by
    intro l
    induction l with
    | nil => exact fun _ => rfl
    | cons i l ih =>
      intro hl
      have hforM : (i :: l).forM resolveOperand s =
        (resolveOperand i >>= fun _ => l.forM resolveOperand) s := rfl
      rw [hforM, run_bind, hone i (hl i (by simp))]
      exact ih fun j hj => hl j (by simp [hj])
  exact hall _ fun i hi => List.mem_range.1 hi

section

variable {e : Engine} {inst : Instruction} {action : Step (Option Fault)}
  (hsemantics : e.arch.semantics? inst.opcode = some action) {s s' : Frame}
  (hresolve : resolveOperands (Frame.start ⟨e, inst⟩) = .ok () s) {fault : Option Fault}
  (hrun : action s = .ok fault s')

include hsemantics hresolve hrun

/-- An instruction is processed: its operands are resolved, and it does what its operation
does. -/
theorem run_process_settle : process ⟨e, inst⟩ = settle fault s' := by
  have hopcode : (start ⟨e, inst⟩).arch.semantics?
      (start ⟨e, inst⟩).instruction.opcode = some action := hsemantics
  rw [run_process, run_bind, run_execute, hopcode]
  simp only [run_bind, hresolve, hrun]

theorem run_process_of (hlisted : s'.Listed) :
    ∃ s'', process ⟨e, inst⟩ = .ok fault s'' ∧ s'.Settles s'' := by
  obtain ⟨s'', hsettle, hsettles⟩ := run_settle hlisted fault
  exact ⟨s'', (run_process_settle hsemantics hresolve hrun).trans hsettle, hsettles⟩

end

/-- An operation that is no branch, of an instruction without addresses to compute: what comes
after it is the end of the instruction, which changes no register but the program counter. -/
theorem run_process_complete {e : Engine} {inst : Instruction} {x : Step Unit} {s : Frame}
    (hsemantics : e.arch.semantics? inst.opcode = some (complete x))
    (hfixed : ∀ op ∈ inst.operands, ∀ access, op = .memory access → access.isComputed = false)
    (hx : x (start ⟨e, inst⟩) = .ok () s) (hkeeps : (start ⟨e, inst⟩).Keeps s) :
    ∃ s', process ⟨e, inst⟩ = .ok none s' ∧
      (∀ reg, e.arch.isProgramCounter reg = false →
        s'.machine.register reg = s.machine.register reg) ∧
      s'.taint = s.taint.setRegister e.arch.programCounter false := by
  have harch : s.arch = e.arch := hkeeps.arch
  obtain ⟨s₁, hadvance, hkeeps₁, hmachine, htaint⟩ := run_advance s
  have hcomplete : complete x (start ⟨e, inst⟩) = .ok none { s₁ with instruction :=
      { s₁.instruction with branch := false, taken := false, next := s.instruction.fallThrough } } := by
    unfold complete
    rw [run_bind, hx]
    simp only [run_bind, hadvance]
    rfl
  obtain ⟨s', hprocess, hsettles⟩ := run_process_of hsemantics
    (run_resolveOperands_of_fixed (s := start ⟨e, inst⟩) hfixed) hcomplete
    (hkeeps₁.listed (hkeeps.listed (by simp [Listed, start, reset])))
  refine ⟨s', hprocess, fun reg hreg => ?_, ?_⟩
  · rw [hsettles.weakens.machine]
    show s₁.machine.register reg = _
    rw [hmachine, harch]
    exact register_setRegister_of_ne (symm (beq_eq_false_iff_ne.1 hreg)) _ _
  · rw [hsettles.engine]
    show s₁.taint = _
    rw [htaint, harch]

theorem settle_of_empty (h : s.instruction.expressions = #[]) (fault : Option Fault) :
    settle fault s =
      .ok fault { s with instruction := { s.instruction with fault, tainted := false } } := by
  have hnone : ∀ {t : Frame}, t.instruction.expressions = #[] →
      expressions t = .ok [] t := by
    intro t ht
    have hrun : expressions t = (t.instruction.expressions.toList.mapM fun id =>
      (t.symbolic.expression id : Step Expression)) t := rfl
    rw [hrun, ht]
    rfl
  have hprune : ∀ {t : Frame}, t.instruction.expressions = #[] → prune t = .ok () t := by
    intro t ht
    have hrun : prune t = (expressions >>= fun xs =>
        (xs.filter fun x => !keeps t.modes x).forM drop >>= fun _ =>
          list (xs.filter (keeps t.modes))) t := rfl
    have hlist : list [] t = .ok () t := by
      show EStateM.Result.ok () { t with instruction.expressions := #[] } = _
      rw [← ht]
    rw [hrun, run_bind, hnone ht]
    exact hlist
  have hfault : ({ s with instruction.fault := fault } : Frame).instruction.expressions = #[] := h
  rw [run_settled, run_bind, hprune hfault]
  simp only [run_bind, hnone hfault]
  rfl

/-- From every frame as said the part answers, with an answer and a frame as said. -/
def Brings {α : Type} (pre : Frame → Prop) (x : Step α) (post : α → Frame → Prop) : Prop :=
  ∀ s, pre s → ∃ a s', x s = .ok a s' ∧ post a s'

theorem Brings.bind {α β : Type} {x : Step α} {k : α → Step β} {pre : Frame → Prop}
    {post : α → Frame → Prop} {post' : β → Frame → Prop}
    (hx : Brings pre x post) (hk : ∀ a, Brings (post a) (k a) post') :
    Brings pre (x >>= k) post' := by
  intro s hs
  obtain ⟨a, s₁, hrun, ha⟩ := hx s hs
  rw [run_bind, hrun]
  exact hk a s₁ ha

end Step

theorem View.Gives.outcomes {pc : Formula} (h : V.Gives pc width n) (rules : Rules)
    (source target : Address) : ∃ bs, Build.Answers rules (outcomes pc source target) (.ok bs) := by
  have heq : ∀ {g : Formula} {a : Nat}, V.Gives g width a →
      ∃ c, Build.Answers rules (Build.eq pc g) (.ok c) := fun hg => by
    obtain ⟨c, hc, -⟩ := (Forms.compare h .eq hg).answers trivial
    exact ⟨c, hc⟩
  have hsingle : ∃ bs, Build.Answers rules (do
      let dest ← Build.constant target.toNat pc.width
      let constraint ← Build.eq pc dest
      return [({ taken := true, source, target, constraint } : Branch)]) (.ok bs) := by
    obtain ⟨d, hd, hgives⟩ :=
      (Forms.constant h.width_range target.toNat : V.Forms rules _ _ _).answers trivial
    obtain ⟨c, hc⟩ := heq hgives
    rw [h.width_eq]
    exact ⟨_, hd.bind (hc.bind (.pure _))⟩
  -- the two sides of a choice are words of its width
  have houtcome : ∀ {g : Formula} {a : Nat}, g ∈ pc.children → g.width = pc.width →
      g.constant? = some a → ∃ b, Build.Answers rules (outcome pc source target g a) (.ok b) := by
    intro g a hmem hwidth hconstant
    have hform := constant?_eq_some hconstant
    obtain ⟨c, hc⟩ := heq (g := g) (a := a) ⟨h.wellFormed.children hmem, by rw [hform]; rfl,
      hwidth.trans h.width_eq, fun _ => eval_of_constant? hconstant _,
      fun hbare => (h.memoryless hbare).operand hmem⟩
    exact ⟨_, hc.bind (.pure _)⟩
  unfold Engine.outcomes
  split
  · next c onTrue onFalse =>
    split
    · next a b ha hb =>
      split
      · obtain ⟨x, hx⟩ := houtcome (g := onTrue) (by simp) rfl ha
        obtain ⟨y, hy⟩ := houtcome (g := onFalse) (by simp) h.wellFormed.lawful.2.2.1.symm hb
        exact ⟨_, hx.bind (hy.bind (.pure _))⟩
      · exact hsingle
    · exact hsingle
  · exact hsingle

/-- All that happened is that formulas were built and operands resolved. -/
structure Frame.Still (s s' : Frame) : Prop where
  engine : ∃ pool, s'.engine = s.engine.withPool pool
  expressions : s'.instruction.expressions = s.instruction.expressions

theorem Frame.Still.refl (s : Frame) : s.Still s := ⟨⟨s.pool, rfl⟩, rfl⟩

theorem Frame.Still.trans {s t u : Frame} (h : s.Still t) (h' : t.Still u) : s.Still u := by
  obtain ⟨pool, hpool⟩ := h.engine
  obtain ⟨pool', hpool'⟩ := h'.engine
  refine ⟨⟨pool', ?_⟩, h'.expressions.trans h.expressions⟩
  rw [hpool', hpool]
  rfl

/-! Scenes. -/

theorem List.foldl_modify_range {α : Type} (f : α → α) (l : List α) :
    (List.range l.length).foldl (fun l i => l.modify i f) l = l.map f := by
  have hplace : ∀ (places : List Nat), places.Nodup → ∀ (l : List α) (j : Nat),
      (places.foldl (fun l i => l.modify i f) l)[j]? =
        if j ∈ places then l[j]?.map f else l[j]? := by
    intro places
    induction places with
    | nil => simp
    | cons i places ih =>
      intro hnodup l j
      obtain ⟨hnot, hrest⟩ := List.nodup_cons.1 hnodup
      rw [List.foldl_cons, ih hrest, List.getElem?_modify]
      by_cases hij : i = j
      · subst hij
        simp [hnot]
      · simp [hij, Ne.symm hij]
  refine List.ext_getElem? fun j => ?_
  rw [hplace _ List.nodup_range, List.getElem?_map]
  split
  · rfl
  · next hj =>
    rw [List.getElem?_eq_none (by simpa using hj)]
    rfl

/-- Where a run takes place: the view, the architecture, and the instruction with its
operands as they are read. -/
structure Scene where
  view : View
  arch : Architecture
  code : Instruction

namespace Scene

/-- The frame runs the instruction, on a machine like `m`. -/
structure Bare (S : Scene) (m : Machine) (s : Frame) : Prop where
  arch : s.arch = S.arch
  noArray : s.modes.isOn .memoryArray = false
  address : s.instruction.address = S.code.address
  length : s.instruction.length = S.code.length
  operands : s.instruction.operands = S.code.operands
  listed : s.Listed
  machine : Machine.Alike S.arch m s.machine

/-- The frame runs the instruction, on a machine like `m`, which the view shows. -/
structure At (S : Scene) (m : Machine) (s : Frame) : Prop extends S.Bare m s where
  shows : S.view.Shows s.engine

variable {S : Scene} {m m' : Machine} {s t s' : Frame}

theorem Bare.next (h : S.Bare m s) (hs : s.Keeps t) (hm : Alike S.arch m' t.machine) :
    S.Bare m' t where
  arch := hs.arch.trans h.arch
  noArray := by rw [hs.modes]; exact h.noArray
  address := (hs.same Instruction.address).trans h.address
  length := (hs.same Instruction.length).trans h.length
  operands := (hs.same Instruction.operands).trans h.operands
  listed := hs.listed h.listed
  machine := hm

theorem Bare.like (h : S.Bare m s) (hlike : s.Like t) : S.Bare m t :=
  h.next (.of_like hlike) (hlike.engine.machine ▸ h.machine)

theorem At.like (h : S.At m s) (hlike : s.Like t) : S.At m t :=
  ⟨h.toBare.like hlike, h.shows.weaken hlike.engine.weakens hlike.engine.vars⟩

theorem At.withPool (h : S.At m s) (pool : Pool) : S.At m (s.withPool pool) :=
  h.like (s.like_withPool pool)

theorem Bare.alike (h : S.Bare m s) (hm : Alike S.arch m' m) : S.Bare m' s :=
  { h with machine := hm.trans h.machine }

theorem At.alike (h : S.At m s) (hm : Alike S.arch m' m) : S.At m' s := ⟨h.toBare.alike hm, h.shows⟩

theorem At.register (h : S.At m s) (hreg : S.arch.Has reg) :
    s.machine.register reg = m.register reg := (h.machine.register hreg).symm

theorem Bare.records (h : S.Bare m s) (hs : s.Records f origin comment machine s')
    (hm : Alike S.arch m' machine) : S.Bare m' s' :=
  h.next hs.keeps (by rw [hs.engine]; exact hm)

theorem At.records (h : S.At m s) (hs : s.Records f origin comment machine s')
    (hm : Alike S.arch m' machine)
    (hshows : S.view.Shows (s.assigned f origin comment machine).engine) : S.At m' s' := by
  refine ⟨h.toBare.records hs hm, hshows.weaken hs.weakens ?_⟩
  rw [hs.engine]

/-! Looks at the frame. -/

theorem At.operand (h : S.At m s) (hop : S.code.operands[i]? = some op) :
    s.Makes True (operand i) (· = op) := by
  refine ⟨.ok op, fun pool => ⟨pool, ?_⟩, fun _ ha => (Except.ok.inj ha).symm, fun _ => ⟨op, rfl⟩⟩
  rw [run_operand, (h.withPool pool).operands, hop]
  rfl

theorem At.lookup (h : S.At m s) (hreg : S.arch.register? id = some reg) :
    s.Makes True (Step.register id) (· = reg) := by
  refine ⟨.ok reg, fun pool => ⟨pool, ?_⟩, fun _ ha => (Except.ok.inj ha).symm, fun _ => ⟨reg, rfl⟩⟩
  rw [run_register, (h.withPool pool).arch, Architecture.register, hreg]
  rfl

theorem At.evaluate (h : S.At m s) (hf : S.view.Gives f width value) :
    s.Makes True (evaluate f) (· = value) := by
  rw [← h.shows.evaluate hf]
  exact .evaluate f

/-! Runs. -/

/-- The part leads from a machine like `m` to one like `m'`, and what it answers is so. -/
def Runs {α : Type} (S : Scene) (m : Machine) (x : Step α) (m' : Machine) (post : α → Prop) :
    Prop :=
  Brings (S.At m) x fun a s' => S.At m' s' ∧ post a

abbrev Moves {α : Type} (S : Scene) (m : Machine) (x : Step α) (m' : Machine) : Prop :=
  S.Runs m x m' fun _ => True

namespace Runs

variable {α β : Type} {m'' : Machine} {x : Step α} {post post' : α → Prop}

theorem pure {a : α} (h : post a) : S.Runs m (pure a) m post := fun s hs => ⟨a, s, rfl, hs, h⟩

theorem bind {k : α → Step β} {post' : β → Prop} (hx : S.Runs m x m' post)
    (hk : ∀ a, post a → S.Runs m' (k a) m'' post') : S.Runs m (x >>= k) m'' post' :=
  Brings.bind hx fun a s h => hk a h.2 s h.1

theorem bind_eq {k : α → Step β} {post' : β → Prop} {a : α} (hx : S.Runs m x m' (· = a))
    (hk : S.Runs m' (k a) m'' post') : S.Runs m (x >>= k) m'' post' :=
  hx.bind fun _ h => h ▸ hk

theorem seq {k : α → Step β} {post' : β → Prop} (hx : S.Moves m x m')
    (hk : ∀ {a}, S.Runs m' (k a) m'' post') : S.Runs m (x >>= k) m'' post' :=
  hx.bind fun _ _ => hk

theorem of_makes (h : ∀ s, S.At m s → s.Makes True x post) : S.Runs m x m post := by
  intro s hs
  obtain ⟨r, pool, hrun, hpost, hsure⟩ := (h s hs).run
  obtain ⟨a, rfl⟩ := hsure trivial
  exact ⟨a, s.withPool pool, hrun, hs.withPool pool, hpost a rfl⟩

theorem look {f : Frame → α} (h : ∀ s, S.At m s → post (f s)) :
    S.Runs m (fun s => .ok (f s) s) m post := fun s hs => ⟨f s, s, rfl, hs, h s hs⟩

theorem build {b : Build Formula} (h : ∀ rules, S.view.Forms rules b width value) :
    S.Runs m (exec (Exec.build b)) m fun f => S.view.Gives f width value :=
  of_makes fun _ _ => .build (h _) fun _ => rfl

/-- A formula is built first. -/
theorem form {b : Build Formula} {k : Formula → Step β} {post : β → Prop}
    (h : ∀ {rules}, S.view.Forms rules b width value)
    (hk : ∀ f, S.view.Gives f width value → S.Runs m (k f) m' post) :
    S.Runs m (exec (Exec.build b) >>= k) m' post := (build fun _ => h).bind hk

theorem arch : S.Runs m Step.arch m (· = S.arch) := look fun _ hs => hs.arch

theorem fallThrough : S.Runs m fallThrough m (· = S.code.fallThrough) :=
  look fun s hs => by
    unfold Instruction.fallThrough
    rw [hs.address, hs.length]

theorem operand (h : S.code.operands[i]? = some op) :
    S.Runs m (operand i) m (· = op) := of_makes fun _ hs => hs.operand h

theorem register (h : S.arch.register? id = some reg) :
    S.Runs m (register id) m (· = reg) := of_makes fun _ hs => hs.lookup h

theorem evaluate (h : S.view.Gives f width value) :
    S.Runs m (evaluate f) m (· = value) := of_makes fun _ hs => hs.evaluate h

theorem taints (h : Taints x) : S.Moves m x m := by
  intro s hs
  obtain ⟨a, taint, hrun⟩ := h s
  refine ⟨a, _, hrun, hs.like ?_, trivial⟩
  exact ⟨⟨rfl, rfl, rfl, rfl, rfl, rfl, rfl, rfl, rfl⟩, rfl⟩

theorem isTainted (op : Operand) : S.Moves m (Step.isTainted op) m := taints (taints_isTainted op)

theorem isRegisterTainted (h : S.arch.register? id = some reg) :
    S.Moves m (isRegisterTainted id) m :=
  (register h).bind fun _ _ => look fun _ _ => trivial

theorem anyRegisterTainted {ids : List Nat} (h : ∀ id ∈ ids, (S.arch.register? id).isSome) :
    S.Moves m (anyRegisterTainted ids) m := by
  have hall : ∀ l : List Nat, (∀ id ∈ l, (S.arch.register? id).isSome) →
      S.Moves m (l.mapM Step.isRegisterTainted) m := by
    intro l
    induction l with
    | nil => exact fun _ => pure trivial
    | cons id l ih =>
      intro hl
      obtain ⟨reg, hreg⟩ := Option.isSome_iff_exists.1 (hl id (by simp))
      rw [List.mapM_cons]
      exact (isRegisterTainted hreg).bind fun _ _ =>
        (ih fun j hj => hl j (by simp [hj])).bind fun _ _ => pure trivial
  exact (hall ids h).bind fun _ _ => pure trivial

end Runs

/-! Reading. -/

def registerValue (S : Scene) (m : Machine) (reg : Register) : Nat :=
  S.code.registerValue S.arch m reg

theorem At.readRegister (h : S.At m s) (hreg : S.arch.Has reg) :
    s.Makes True (readRegister reg) fun f =>
      S.view.Gives f reg.bits (S.registerValue m reg) := by
  have hwidth : WordWidth reg.bits := hreg.wordWidth
  have hcounter : counterValue s.arch s.instruction = counterValue S.arch S.code := by
    unfold counterValue Instruction.fallThrough
    rw [h.arch, h.address, h.length]
  refine .build (b := if s.arch.isZeroRegister reg then Build.zero reg.bits
    else if s.arch.isProgramCounter reg then
      Build.constant (counterValue s.arch s.instruction).toNat reg.bits
    else s.symbolic.registerFormula s.machine reg) ?_
    fun pool => run_readRegister reg (s.withPool pool)
  rw [hcounter, h.arch]
  unfold registerValue Instruction.registerValue
  split
  · exact Forms.zero hwidth
  · split
    · exact Forms.constant hwidth _
    · rw [← h.register hreg]
      exact h.shows.registerFormula (h.arch.symm ▸ hreg)

theorem At.readRegisterId (h : S.At m s) (hreg : S.arch.register? id = some reg) :
    s.Makes True (readRegisterId id) fun f =>
      S.view.Gives f reg.bits (S.registerValue m reg) := by
  refine (h.lookup hreg).bind fun found hfound => ?_
  subst hfound
  exact h.readRegister (has_of_register? hreg)

theorem At.addressPart (h : S.At m s) (hreg : S.arch.Has reg) :
    s.Makes True (addressPart reg) fun f =>
      S.view.Gives f S.arch.addressWidth
        (truncate S.arch.addressWidth (S.registerValue m reg)) := by
  refine (h.readRegister hreg).bind fun f hf => ?_
  refine Makes.arch.bind fun arch harch => ?_
  rw [harch, h.arch]
  exact .build (Forms.resize hf S.arch.addressWidth_range) fun _ => rfl

end Scene

theorem Word.add_wrap (width : Nat) (x y : Int) :
    add width (wrap width x) (wrap width y) = wrap width (x + y) := by
  have hcast : ((add width (wrap width x) (wrap width y) : Nat) : Int) =
      (wrap width (x + y) : Nat) := by
    rw [add, ← wrap_natCast, wrap_cast, wrap_cast]
    push_cast
    rw [wrap_cast, wrap_cast, Int.emod_add_emod, Int.add_emod_emod]
  exact_mod_cast hcast

theorem Word.mul_wrap (width : Nat) (x y : Int) :
    mul width (wrap width x) (wrap width y) = wrap width (x * y) := by
  have hcast : ((mul width (wrap width x) (wrap width y) : Nat) : Int) =
      (wrap width (x * y) : Nat) := by
    rw [mul, ← wrap_natCast, wrap_cast, wrap_cast]
    push_cast
    rw [wrap_cast, wrap_cast, ← Int.mul_emod]
  exact_mod_cast hcast

namespace Scene

variable {S : Scene} {m m' : Machine} {s t s' : Frame}

theorem At.effectiveAddress (h : S.At m s) (hsuits : access.Suits S.arch False) :
    s.Makes True (effectiveAddress access) fun f =>
      S.view.Gives f S.arch.addressWidth (wrap S.arch.addressWidth
        (access.displacement.toInt + S.code.partValue S.arch m access.base +
          S.code.partValue S.arch m access.index * (max access.scale 1 : Nat))) := by
  have hrange := S.arch.addressWidth_range
  have harch : s.Makes True Step.arch (· = S.arch) := by
    rw [← h.arch]
    exact .arch
  have hword : ∀ n : Nat, s.Makes True (exec (Exec.build (Build.constant n S.arch.addressWidth)))
      fun f => S.view.Gives f S.arch.addressWidth (truncate S.arch.addressWidth n) :=
    fun n => .build (Forms.constant hrange n) fun _ => rfl
  refine effectiveAddress_composes Makes.composes
    (fun x f => S.view.Gives f S.arch.addressWidth (wrap S.arch.addressWidth x))
    (fun reg => S.code.partValue S.arch m reg) rfl harch (fun x => ?_) hword
    (fun hreg => h.addressPart (hreg.elim (hsuits.base _) (hsuits.index _)))
    (fun {f g x y} hf hg => ?_) fun {f g x y} hf hg => ?_
  · have hwrapped := hword (wrap S.arch.addressWidth x)
    rwa [truncate_of_lt (wrap_lt _ _)] at hwrapped
  · rw [← add_wrap]
    exact .build (Forms.arith hf .add hg) fun _ => rfl
  · rw [← mul_wrap]
    exact .build (Forms.arith hf .mul hg) fun _ => rfl

theorem At.load (h : S.At m s) (hwhole : access.bits % 8 = 0) (hrange : WordWidth access.bits) :
    s.Makes True (load access) fun f =>
      S.view.Gives f access.bits (m.accessValue access) := by
  have hbytes : access.bytes * 8 = access.bits := by
    unfold Access.bytes
    omega
  have hpos : 1 ≤ access.bytes := by
    have := hrange.1
    omega
  have hmax : access.bytes ≤ maxBytes := by
    have := hrange.2
    unfold limit at this
    unfold maxBytes
    omega
  refine .build (b := s.symbolic.memoryFormula (s.modes.isOn .alignedMemory)
    s.machine access) ?_ fun pool => run_load h.noArray
  have hvalue : m.accessValue access = s.machine.accessValue access := h.machine.value _ _
  rw [hvalue, ← hbytes]
  exact h.shows.memoryFormula hpos hmax

theorem At.read (h : S.At m s) (hop : op.Fits S.arch width) (hbits : op.bits = width)
    (hrange : WordWidth width) :
    s.Makes True (read op) fun f =>
      S.view.Gives f width (S.code.operandValue S.arch m width op) := by
  subst hbits
  cases op with
  | immediate imm =>
    refine .build ((Forms.constant hrange _).of_eq rfl ?_) fun _ => rfl
    exact (signExtend_self imm.bits imm.value.toNat).symm
  | register reg => exact h.readRegister hop.1
  | memory access => exact h.load hop.2 hrange

namespace Runs

variable {α β : Type}

theorem readRegister (hreg : S.arch.Has reg) :
    S.Runs m (readRegister reg) m fun f =>
      S.view.Gives f reg.bits (S.registerValue m reg) :=
  of_makes fun _ hs => hs.readRegister hreg

theorem readRegisterId (h : S.arch.register? id = some reg) :
    S.Runs m (readRegisterId id) m fun f =>
      S.view.Gives f reg.bits (S.registerValue m reg) := of_makes fun _ hs => hs.readRegisterId h

theorem read (h : op.Fits S.arch width) (hbits : op.bits = width) (hrange : WordWidth width) :
    S.Runs m (read op) m fun f =>
      S.view.Gives f width (S.code.operandValue S.arch m width op) :=
  of_makes fun _ hs => hs.read h hbits hrange

theorem readSized (h : op.Fits S.arch width) (hrange : WordWidth width) :
    S.Runs m (readSized op width) m fun f =>
      S.view.Gives f width (S.code.operandValue S.arch m width op) := by
  cases op with
  | immediate imm =>
    exact build fun rules => (Forms.constant hrange _).of_eq rfl
      (truncate_of_lt (signExtend_lt _ _ _))
  | register reg =>
    have hbits : (Operand.register reg).bits = width := h.2
    simp only [readSized, hbits, ne_eq]
    exact read h hbits hrange
  | memory access =>
    have hbits : (Operand.memory access).bits = width := h.1
    simp only [readSized, hbits, ne_eq]
    exact read h hbits hrange

end Runs

/-! Writing. -/

theorem At.withPath (h : S.At m s) (constraints : Array PathConstraint) :
    S.At m { s with engine := { s.engine with
      symbolic := { s.symbolic with constraints } } } := by
  exact ⟨{ __ := h.toBare }, { __ := h.shows }⟩

/-- The view looks at every memory. -/
def Steady (S : Scene) : Prop := ∀ v byte, S.view.admits v → S.view.admits { v with byte }

/-- A write changes the machine; what is bound stays shown, unless memory is written and
the view looks at it. -/
theorem At.write (h : S.At m s) (hdst : dst.Target S.arch width) (hf : S.view.Gives f width n)
    (comment : String) :
    ∃ id s', write dst f comment s = .ok id s' ∧
      (∀ i, id = some i → i < s'.symbolic.expressions.size) ∧
      S.Bare (m.store S.arch dst n) s' ∧
      (dst.memory? = none ∨ S.Steady → S.At (m.store S.arch dst n) s') := by
  cases dst with
  | immediate imm => cases hdst.2
  | register reg =>
    obtain ⟨hreg, rfl⟩ := hdst.1
    by_cases hzero : S.arch.isZeroRegister reg = true
    · have hrun : write (.register reg) f comment s = .ok none s := by
        rw [run_writeRegister, h.arch, if_pos hzero]
      have hstore : m.store S.arch (.register reg) n = m := if_pos hzero
      rw [hstore]
      exact ⟨none, s, hrun, fun _ h => (by cases h), h.toBare, fun _ => h⟩
    · obtain ⟨root, hroot, hisRoot, -⟩ := hreg.root
      have hstore : m.store S.arch (.register reg) n = m.setRegister reg n := if_neg hzero
      obtain ⟨merged, hmerged, hgives⟩ := (h.shows.mergeRegister (h.arch.symm ▸ hreg)
        (h.arch.symm ▸ hroot) hf : S.view.Forms s.modes.rules _ _ _).answers trivial
      obtain ⟨pool, s', hrun, hs'⟩ := run_write_register
        (h.arch.symm ▸ Bool.eq_false_iff.2 hzero) (h.arch.symm ▸ hroot) hisRoot hmerged
        hgives.width_eq comment
      rw [h.shows.evaluate hgives] at hs'
      have hm : Alike S.arch (m.setRegister reg n) (s.machine.setRegister root
          ((s.machine.setRegister reg n).register root)) :=
        (h.machine.setRegister reg n).trans (alike_setRoot hroot hisRoot _ n).symm
      have hat : S.At (m.setRegister reg n) s' := (h.withPool pool).records hs' hm
        ((h.withPool pool).shows.bindRegister (h.arch.symm ▸ has_of_register? hroot) hisRoot hgives)
      rw [hstore]
      refine ⟨_, s', hrun, fun i hi => ?_, hat.toBare, fun _ => hat⟩
      obtain rfl := Option.some.inj hi
      exact hs'.size_lt
  | memory access =>
    obtain ⟨hbits, hwhole⟩ := hdst.1
    obtain ⟨s', hrun, hs'⟩ := run_write_memory h.noArray (hf.width_eq.trans hbits.symm)
      (hbits.symm ▸ hwhole) comment
    rw [h.shows.evaluate hf] at hs'
    have hbytes : width = access.bytes * 8 := by
      unfold Access.bytes
      omega
    have hmax : access.bytes ≤ maxBytes := by
      have := hf.width_range.2
      unfold limit at this
      unfold maxBytes
      omega
    have hm := h.machine.setValue access.address hmax n
    refine ⟨_, s', hrun, fun i hi => ?_, h.toBare.records hs' hm, fun hsteady => ?_⟩
    · obtain rfl := Option.some.inj hi
      exact hs'.size_lt
    · have hsteady := hsteady.resolve_left (by simp [Operand.memory?])
      exact h.records hs' hm (h.shows.bindMemory hsteady (hbytes ▸ hf))

theorem At.assign (h : S.At m s) (hdst : dst.Target S.arch width) (hf : S.view.Gives f width n)
    (comment : String) (htaint : Taints taint) :
    ∃ b s', assign dst f comment taint s = .ok b s' ∧ S.Bare (m.store S.arch dst n) s' ∧
      (dst.memory? = none ∨ S.Steady → S.At (m.store S.arch dst n) s') := by
  obtain ⟨id, s₁, hwrite, hid, hbare, hat⟩ := h.write hdst hf comment
  obtain ⟨b, -, s', hrun, hlike, -⟩ := run_assign htaint hwrite hid
  exact ⟨b, s', hrun, hbare.like hlike, fun hsteady => (hat hsteady).like hlike⟩

theorem Bare.setNext (h : S.Bare m s) (branch taken : Bool) (next : Address) :
    S.Bare m { s with instruction := { s.instruction with branch, taken, next } } where
  __ := h

/-- The end of an instruction that is no branch, whether or not the view shows the engine. -/
theorem Bare.advance (h : S.Bare m s) :
    ∃ s', advance s = .ok () s' ∧ S.Bare (m.past S.arch S.code) s' := by
  have hnext : s.instruction.fallThrough = S.code.fallThrough := by
    unfold Instruction.fallThrough
    rw [h.address, h.length]
  obtain ⟨s', hrun, hkeeps, hmachine, -⟩ := run_advance s
  rw [h.arch, past, hnext] at hmachine
  refine ⟨_, hrun, (h.next hkeeps ?_).setNext false false _⟩
  rw [hmachine]
  exact h.machine.setRegister _ _

namespace Runs

theorem assign (hdst : dst.Target S.arch width) (hf : S.view.Gives f width n)
    (hsteady : dst.memory? = none ∨ S.Steady) (comment : String) (htaint : Taints taint) :
    S.Moves m (assign dst f comment taint) (m.store S.arch dst n) := by
  intro s hs
  obtain ⟨b, s', hrun, -, hat⟩ := hs.assign hdst hf comment htaint
  exact ⟨b, s', hrun, hat hsteady, trivial⟩

theorem writeRegister (hreg : S.arch.register? id = some reg)
    (hzero : S.arch.isZeroRegister reg = false) (hf : S.view.Gives f reg.bits n)
    (comment : String) (b : Bool) :
    S.Moves m (writeRegister id f comment b) (m.setRegister reg n) := by
  refine (register hreg).bind_eq ?_
  have hstore : m.store S.arch (.register reg) n = m.setRegister reg n := by
    simp [Machine.store, hzero]
  have htarget : (Operand.register reg).Target S.arch reg.bits :=
    ⟨⟨has_of_register? hreg, rfl⟩, rfl⟩
  rw [← hstore]
  exact (assign htarget hf (.inl rfl) comment (taints_setTaint _ b)).bind fun _ _ => pure trivial

theorem volatile (f : Formula) (comment : String) (b : Bool) :
    S.Moves m (volatile f comment b) m := by
  intro s hs
  obtain ⟨s₁, hs₁, hrecord⟩ := run_recordNew s f .volatile comment s.machine
  have hat : S.At m s₁ := hs.records hs₁ hs.machine (hs.shows.weaken (s.engine.weakens_enter _) rfl)
  obtain ⟨symbolic, hupdates, hstamp⟩ := run_stamp hs₁.size_lt b
  refine ⟨(), _, ?_, hat.like (.stamp hupdates), trivial⟩
  rw [run_volatile, run_bind, hrecord]
  exact hstamp

theorem advance : S.Moves m advance (m.past S.arch S.code) := by
  have hpc := S.arch.programCounter_has
  have hwidth := hpc.wordWidth
  refine arch.bind_eq (fallThrough.bind_eq ?_)
  refine form (.constant hwidth _) fun f hf => ?_
  refine (writeRegister hpc S.arch.isZeroRegister_programCounter hf _ _).seq ?_
  exact fun s hs => ⟨(), _, rfl, ⟨hs.toBare.setNext _ _ _, hs.shows⟩, trivial⟩

/-! Control flow. -/

theorem arrive (hf : S.view.Gives f width n) (conditional : Bool) :
    S.Moves m (arrive f conditional) m := by
  intro s hs
  obtain ⟨bs, hbs⟩ := hf.outcomes s.modes.rules s.instruction.address (s.evaluate f).toUInt64
  obtain ⟨pool, hrun⟩ := run_arrival conditional hbs
  rw [hrun]
  split
  · exact ⟨(), _, rfl, ⟨hs.toBare.setNext _ _ _, hs.shows⟩, trivial⟩
  · have hpath := (hs.withPool pool).withPath (s.symbolic.constraints.push { branches := bs })
    exact ⟨(), _, rfl, ⟨hpath.toBare.setNext _ _ _, hpath.shows⟩, trivial⟩

theorem choose {condition : Formula} {holds : Bool}
    (hcondition : S.view.Gives condition 1 holds.toNat) (htarget : S.view.Gives target width n) :
    S.Runs m (choose condition target width) m fun f => S.view.Gives f width
      (if holds then n else truncate width S.code.fallThrough.toNat) := by
  refine fallThrough.bind_eq ?_
  refine form (.constant htarget.width_range _) fun other hother => ?_
  exact build fun rules => Forms.ite hcondition htarget hother

theorem jump (htarget : S.view.Gives target width n) (tainted conditional : Bool) :
    S.Moves m (jump target tainted conditional) (m.setRegister S.arch.programCounter
      (truncate S.arch.programCounter.bits n)) := by
  have hpc := S.arch.programCounter_has
  have hwidth := hpc.wordWidth
  refine arch.bind_eq ?_
  refine form (.resize htarget hwidth) fun f hf => ?_
  refine (writeRegister hpc S.arch.isZeroRegister_programCounter hf _ _).seq ?_
  exact arrive hf conditional

theorem complete (hx : S.Moves m x m') : S.Runs m (complete x) (m'.past S.arch S.code) (· = none) :=
  hx.bind fun _ _ => advance.bind fun _ _ => pure rfl

theorem completeBranch (hx : S.Moves m x m') :
    S.Runs m (completeBranch x) m' (· = none) := hx.bind fun _ _ => pure rfl

end Runs

/-! Operands. -/

def withOperands (S : Scene) (operands : List Operand) : Scene :=
  { S with code := { S.code with operands } }

theorem At.computedAddress (h : S.At m s) (hop : op.Resolves S.arch) :
    s.Makes True (computedAddress op) fun address =>
      S.code.placed S.arch m op = (address.map fun a => op.placed a).getD op := by
  cases op with
  | immediate imm => exact .pure rfl
  | register reg => exact .pure rfl
  | memory access =>
    obtain ⟨hsuits, hwidth⟩ := hop
    unfold computedAddress
    by_cases hcomputed : access.isComputed = true
    · obtain ⟨hpos, hwhole⟩ := hwidth hcomputed
      simp only [hcomputed, hpos, hwhole]
      refine (h.effectiveAddress hsuits).bind fun f hf => ?_
      refine (Makes.evaluate f).bind fun n hn => .pure ?_
      rw [hn, h.shows.evaluate hf]
      simp only [placed, addressOf, hcomputed]
      rfl
    · simp only [hcomputed]
      refine .pure ?_
      simp only [placed, addressOf, hcomputed, Bool.false_eq_true,
        if_false, Option.map_none, Option.getD_none]

theorem At.resolveOperand {operands : List Operand} (h : (S.withOperands operands).At m s)
    (hi : operands[i]? = some op) (hop : op.Resolves S.arch) :
    ∃ s', resolveOperand i s = .ok () s' ∧
      (S.withOperands (operands.modify i (S.code.placed S.arch m))).At m s' ∧ s.Still s' := by
  have hoperand : Step.operand i s = .ok op s := by
    have hsame : s.instruction.operands = operands := h.operands
    rw [run_operand, hsame, hi]
  obtain ⟨r, pool, hrun, hpost, hsure⟩ := (h.computedAddress hop).run
  obtain ⟨address, rfl⟩ := hsure trivial
  have hplaced : S.code.placed S.arch m op = (address.map fun a => op.placed a).getD op :=
    hpost address rfl
  have hmodify : ∀ {f : Operand → Operand}, f op = S.code.placed S.arch m op →
      operands.modify i f = operands.modify i (S.code.placed S.arch m) := by
    intro f hf
    refine List.ext_getElem? fun j => ?_
    by_cases hij : i = j
    · subst hij
      simp [hi, hf]
    · simp [hij]
  have hpool := h.withPool pool
  rw [run_resolveOperand, run_bind, hoperand]
  simp only [hrun]
  cases address with
  | none =>
    refine ⟨_, rfl, ?_, ⟨pool, rfl⟩, rfl⟩
    have hsame : operands.modify i (S.code.placed S.arch m) = operands := by
      rw [← hmodify (f := id) hplaced.symm, List.modify_id]
    rw [hsame]
    exact hpool
  | some a =>
    refine ⟨_, rfl, ⟨⟨hpool.arch, hpool.noArray, hpool.address, hpool.length, ?_, hpool.listed,
      hpool.machine⟩, hpool.shows⟩, ⟨pool, rfl⟩, rfl⟩
    have hsame : s.instruction.operands = operands := h.operands
    show s.instruction.operands.modify i (Operand.placed a) = _
    rw [hsame]
    exact hmodify hplaced.symm

theorem At.resolveOperands (h : S.At m s) (hops : ∀ op ∈ S.code.operands, op.Resolves S.arch) :
    ∃ s', resolveOperands s = .ok () s' ∧
      (S.withOperands (S.code.operands.map (S.code.placed S.arch m))).At m s' ∧ s.Still s' := by
  have hall : ∀ (places : List Nat) (operands : List Operand) (s : Frame),
      (∀ i ∈ places, i < operands.length) → (∀ op ∈ operands, op.Resolves S.arch) →
      (S.withOperands operands).At m s →
      ∃ s', places.forM Step.resolveOperand s = .ok () s' ∧ (S.withOperands
        (places.foldl (fun l i => l.modify i (S.code.placed S.arch m)) operands)).At m s' ∧
          s.Still s' := by
    intro places
    induction places with
    | nil => exact fun operands s _ _ hs => ⟨s, rfl, hs, .refl s⟩
    | cons i places ih =>
      intro operands s hbound hops hs
      have hi := hbound i (by simp)
      obtain ⟨s₁, hrun, hs₁, hstill⟩ := hs.resolveOperand (List.getElem?_eq_getElem hi)
        (hops _ (List.getElem_mem hi))
      have hresolves : ∀ op : Operand, op.Resolves S.arch →
          (S.code.placed S.arch m op).Resolves S.arch := by
        intro op hop
        cases op with
        | memory access => exact ⟨⟨hop.1.base, hop.1.index, hop.1.size⟩, hop.2⟩
        | _ => exact hop
      obtain ⟨s₂, hrest, hs₂, hstill'⟩ := ih (operands.modify i (S.code.placed S.arch m)) s₁
        (fun j hj => by rw [List.length_modify]; exact hbound j (by simp [hj]))
        (Operand.forall_mem_modify hops hresolves i) hs₁
      refine ⟨s₂, ?_, hs₂, hstill.trans hstill'⟩
      have hforM : (i :: places).forM Step.resolveOperand s =
        (Step.resolveOperand i >>= fun _ => places.forM Step.resolveOperand) s := rfl
      rw [hforM, run_bind, hrun]
      exact hrest
  have hrun : Step.resolveOperands s =
    (List.range s.instruction.operands.length).forM Step.resolveOperand s := rfl
  obtain ⟨s', hforM, hs', hstill⟩ := hall (List.range S.code.operands.length) S.code.operands s
    (fun i hi => List.mem_range.1 hi) hops h
  rw [List.foldl_modify_range] at hs'
  rw [hrun, h.operands]
  exact ⟨s', hforM, hs', hstill⟩

end Scene

/-! Whole instructions. -/

def Engine.scene (e : Engine) (view : View) (inst : Instruction) : Scene where
  view
  arch := e.arch
  code := { inst with operands := inst.operands.map (inst.placed e.arch e.machine) }

theorem Engine.scene_operand {i : Nat} {op : Operand} (h : inst.operands[i]? = some op) :
    (e.scene V inst).code.operands[i]? = some (inst.placed e.arch e.machine op) := by
  simp only [scene, List.getElem?_map, h, Option.map_some]

/-- The operands of an instruction are resolved before anything else happens. -/
theorem Engine.resolves_operands (hshows : V.Shows e)
    (hops : ∀ op ∈ inst.operands, op.Resolves e.arch) :
    ∃ s, resolveOperands (start ⟨e, inst⟩) = .ok () s ∧
      (e.scene V inst).At e.machine s ∧ (start ⟨e, inst⟩).Still s := by
  let S : Scene := ⟨V, e.arch, inst⟩
  have hstart : S.At e.machine (start ⟨e, inst⟩) :=
    ⟨⟨rfl, hshows.noArray, rfl, rfl, rfl, by simp [Listed, start, reset],
      .refl _⟩, hshows⟩
  exact hstart.resolveOperands hops

theorem Scene.At.settles {S : Scene} {m : Machine} {s s' : Frame} (h : S.At m s)
    (hs : s.Settles s') :
    s'.arch = S.arch ∧ Alike S.arch m s'.machine ∧
      S.view.Shows s'.engine := by
  refine ⟨hs.weakens.arch.trans h.arch, hs.weakens.machine ▸ h.machine,
    h.shows.weaken hs.weakens ?_⟩
  rw [hs.engine]

section

variable (hshows : V.Shows e) (hsemantics : e.arch.semantics? inst.opcode = some action)
  (hops : ∀ op ∈ inst.operands, op.Resolves e.arch)

include hshows hsemantics hops

/-- An instruction does what its operation does, and may then lose bindings. -/
theorem Engine.process_runs {fault : Option Fault} {post : Frame → Prop}
    (haction : ∀ s, (e.scene V inst).At e.machine s → ∃ s', action s = .ok fault s' ∧ post s')
    (hlisted : ∀ s, post s → s.Listed) :
    ∃ s s', post s ∧ process ⟨e, inst⟩ = .ok fault s' ∧ s.Settles s' := by
  obtain ⟨s₁, hresolve, hs₁, -⟩ := resolves_operands hshows hops
  obtain ⟨s₂, hrun, hpost⟩ := haction s₁ hs₁
  obtain ⟨s₃, hprocess, hsettles⟩ := run_process_of hsemantics hresolve hrun (hlisted s₂ hpost)
  exact ⟨s₂, s₃, hpost, hprocess, hsettles⟩

/-- An operation that only builds formulas before it is at fault leaves nothing behind. -/
theorem Engine.process_faults {fault : Fault}
    (haction : ∀ s, (e.scene V inst).At e.machine s → s.Makes True action (· = some fault)) :
    ∃ s' pool, process ⟨e, inst⟩ = .ok (some fault) s' ∧ s'.engine = e.withPool pool ∧
      s'.instruction.expressions = #[] := by
  obtain ⟨s, hresolve, hs, ⟨pool, hengine⟩, hnone⟩ := resolves_operands hshows hops
  obtain ⟨r, pool', hrun, hpost, hsure⟩ := (haction s hs).run
  obtain ⟨found, rfl⟩ := hsure trivial
  obtain rfl : found = some fault := hpost _ rfl
  have hempty : (s.withPool pool').instruction.expressions = #[] := hnone
  refine ⟨_, pool', (run_process_settle hsemantics hresolve hrun).trans
    (settle_of_empty hempty _), ?_, hempty⟩
  show s.engine.withPool pool' = _
  rw [hengine]
  rfl

/-- An instruction that leads to a machine like `m'` leads to an engine that is shown. -/
theorem Engine.process_completes {m' : Machine}
    (haction : (e.scene V inst).Runs e.machine action m' (· = none)) :
    ∃ s', process ⟨e, inst⟩ = .ok none s' ∧ s'.arch = e.arch ∧
      Alike e.arch m' s'.machine ∧ V.Shows s'.engine := by
  have hrun : ∀ s, (e.scene V inst).At e.machine s →
      ∃ s', action s = .ok none s' ∧ (e.scene V inst).At m' s' := by
    intro s hs
    obtain ⟨fault, s', hrun, hs', rfl⟩ := haction s hs
    exact ⟨s', hrun, hs'⟩
  obtain ⟨s, s', hs, hrun, hsettles⟩ :=
    process_runs hshows hsemantics hops hrun fun s hs => hs.listed
  exact ⟨s', hrun, hs.settles hsettles⟩

end

end Concolic
