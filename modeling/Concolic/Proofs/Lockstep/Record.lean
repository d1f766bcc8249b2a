import Concolic.Proofs.Branches
import Concolic.Proofs.Change
import Concolic.Proofs.Simulation

/-
  One run of the parts that change the engine.

  What a construction leaves (`Step.run_build`), what a write enters into the
  table, binds and stores (`Step.run_writeRoot`, `Step.run_writeMemory`), and what
  the arrival at a target records (`Step.run_arrival`).
-/

namespace Concolic

open Step Symbolic Engine Expression Exec Build

variable {f : Formula} {s a b : Frame} {id : Nat} {access : Access} {arch : Architecture}
  {symbolic : Symbolic}

/-! Frames. -/

/-- The two frames differ in taint and in the pool of formulas only. -/
structure Frame.Like (s t : Frame) : Prop where
  engine : s.engine.Like t.engine
  instruction : t.instruction = s.instruction

theorem Frame.Like.trans {c : Frame} (h₁ : a.Like b) (h₂ : b.Like c) : a.Like c :=
  ⟨h₁.engine.trans h₂.engine, h₂.instruction.trans h₁.instruction⟩

theorem Frame.Like.symm (h : a.Like b) : b.Like a := ⟨h.engine.symm, h.instruction.symm⟩

def Frame.withPool (s : Frame) (pool : Pool) : Frame := { s with engine := s.engine.withPool pool }

theorem Frame.like_withPool (s : Frame) (pool : Pool) : s.Like (s.withPool pool) :=
  ⟨s.engine.like_withPool pool, rfl⟩

theorem Frame.Like.stamp {b : Bool}
    (h : Updates id (fun x => { x with tainted := b }) s.symbolic symbolic) :
    s.Like { s with symbolic := symbolic } :=
  ⟨⟨rfl, rfl, rfl, h.map_self fun _ => rfl, h.registers, h.memory, h.aligned, h.constraints,
    rfl⟩, rfl⟩

/-- The expressions of the instruction are in the table, each at its number. -/
def Frame.Listed (s : Frame) : Prop :=
  ∀ id ∈ s.instruction.expressions,
    s.symbolic.expressions[id]?.map Expression.id = some id

/-- What a write leaves of a frame as it is. -/
structure Frame.Keeps (s s' : Frame) : Prop where
  arch : s'.arch = s.arch
  modes : s'.modes = s.modes
  later : s.context.Later s'.context
  constraints : s'.symbolic.constraints = s.symbolic.constraints
  instruction : s'.instruction = { s.instruction with
    expressions := s'.instruction.expressions }
  listed : s.Listed → s'.Listed
  size : s.symbolic.expressions.size ≤ s'.symbolic.expressions.size

namespace Frame.Keeps

variable {a b c s s' t t' : Frame}

theorem trans (h₁ : a.Keeps b) (h₂ : b.Keeps c) : a.Keeps c where
  arch := h₂.arch.trans h₁.arch
  modes := h₂.modes.trans h₁.modes
  later := h₁.later.trans h₂.later
  constraints := h₂.constraints.trans h₁.constraints
  instruction := by rw [h₂.instruction, h₁.instruction]
  listed h := h₂.listed (h₁.listed h)
  size := h₁.size.trans h₂.size

theorem of_engine {e : Engine} (harch : e.arch = s.arch) (hmodes : e.modes = s.modes)
    (hlater : s.context.Later e.context)
    (hconstraints : e.symbolic.constraints = s.symbolic.constraints)
    (hexpressions : e.symbolic.expressions.map Expression.id =
      s.symbolic.expressions.map Expression.id) : s.Keeps { s with engine := e } := by
  refine ⟨harch, hmodes, hlater, hconstraints, rfl, ?_, ?_⟩
  · intro hlisted id hid
    have hentry := congrArg (fun table => table[id]?) hexpressions
    simp only [Array.getElem?_map] at hentry
    exact hentry.trans (hlisted id hid)
  · have hsize := congrArg Array.size hexpressions
    simp only [Array.size_map] at hsize
    exact hsize.symm.le

theorem of_like (h : s.Like t) : s.Keeps t := by
  have hids := congrArg (Array.map Expression.id) h.engine.expressions
  simp only [Array.map_map] at hids
  obtain ⟨e, inst⟩ := t
  obtain rfl : inst = s.instruction := h.instruction
  exact .of_engine h.engine.arch h.engine.modes h.engine.later h.engine.constraints hids

theorem withPool (s : Frame) (pool : Pool) : s.Keeps (s.withPool pool) :=
  .of_engine rfl rfl (.refl _) rfl rfl

theorem refl (s : Frame) : s.Keeps s := .of_engine rfl rfl (.refl _) rfl rfl

theorem retaint (s : Frame) (taint : Taint) : s.Keeps { s with taint := taint } :=
  .of_engine rfl rfl (.refl _) rfl rfl

theorem update {change : Expression → Expression} (h : Updates id change s.symbolic symbolic)
    (hid : ∀ x, (change x).id = x.id) : s.Keeps { s with symbolic := symbolic } := by
  refine .of_engine rfl rfl (.refl _) h.constraints (Array.ext_getElem? fun i => ?_)
  simp only [Array.getElem?_map, h.expressions]
  split
  · rw [Option.map_map]
    exact congrArg (Option.map · _) (funext hid)
  · rfl

/-- What there is of the instruction beside the list of its expressions is the same. -/
theorem same (h : s.Keeps s') {α : Type} (field : Instruction → α)
    (hfield : ∀ inst list, field { inst with expressions := list } = field inst := by
      intros; rfl) : field s'.instruction = field s.instruction := by
  rw [h.instruction, hfield]

theorem sameCode (hs : s.Keeps s') (ht : t.Keeps t') {source : Operand → Prop}
    (h : s.SameCode arch source t) : s'.SameCode arch source t' where
  archLeft := hs.arch.trans h.archLeft
  archRight := ht.arch.trans h.archRight
  address := by rw [hs.same Instruction.address, ht.same Instruction.address, h.address]
  length := by rw [hs.same Instruction.length, ht.same Instruction.length, h.length]
  opcode := by rw [hs.same Instruction.opcode, ht.same Instruction.opcode, h.opcode]
  operands := by rw [hs.same Instruction.operands, ht.same Instruction.operands, h.operands]
  sources := by rw [hs.same Instruction.operands]; exact h.sources

end Frame.Keeps

theorem Frame.keeps_addVariable (s : Frame) (width : Nat) (nickname : Option String)
    (value : Nat) (pool : Pool) :
    s.Keeps { s with engine := s.engine.addVariable width nickname value pool } :=
  .of_engine rfl rfl (s.context.addVariable_later _ _ _) rfl rfl

def Frame.newExpression (s : Frame) (f : Formula) (origin : Origin) (comment : String) :
    Expression :=
  { id := s.symbolic.expressions.size, formula := f, origin, comment,
    address := some s.instruction.address }

/-- The frame once an expression is made for an origin and bound to it. -/
def Frame.assigned (s : Frame) (f : Formula) (origin : Origin) (comment : String)
    (m : Machine) : Frame :=
  { s with engine := s.engine.assign (s.newExpression f origin comment) origin m }

/-- An expression with the text of its instruction, if it has one. -/
def Expression.note (text : String) (x : Expression) : Expression :=
  if text.isEmpty then x else { x with disassembly := text }

/-- The text of an instruction is noted alike in expressions that are alike. -/
theorem Expression.note_spec (text : String) : (∀ x, (note text x).formula = x.formula) ∧
    ∀ x y, x.untainted = y.untainted → (note text x).untainted = (note text y).untainted := by
  unfold note
  split
  · exact ⟨fun x => rfl, fun x y hxy => hxy⟩
  · refine ⟨fun x => rfl, fun x y hxy => ?_⟩
    exact congrArg (fun z : Expression => { z with disassembly := text }) hxy

theorem Expression.id_note (text : String) (x : Expression) : (note text x).id = x.id := by
  unfold note
  split <;> rfl

theorem Expression.tag_note (text : String) (x : Expression) : (note text x).tag = x.tag := by
  unfold note
  split <;> rfl

/-- What the recording of a new expression, along with a change of the machine,
makes of a frame. -/
structure Frame.Records (s : Frame) (f : Formula) (origin : Origin) (comment : String)
    (m : Machine) (s' : Frame) : Prop where
  engine : s'.engine = { (s.assigned f origin comment m).engine with
    symbolic := s'.symbolic }
  updates : Updates s.symbolic.expressions.size
    (Expression.note s.instruction.disassembly) (s.assigned f origin comment m).symbolic
    s'.symbolic
  instruction : s'.instruction = { s.instruction with
    expressions := s.instruction.expressions.push s.symbolic.expressions.size }

section

variable {s' : Frame} {origin : Origin} {comment : String} {m : Machine}
  (h : s.Records f origin comment m s')

include h

theorem Frame.Records.size_eq : s'.symbolic.expressions.size = s.symbolic.expressions.size + 1 := by
  rw [h.updates.size, assigned, expressions_assign, Array.size_push]

theorem Frame.Records.size_lt : s.symbolic.expressions.size < s'.symbolic.expressions.size := by
  rw [h.size_eq]
  exact Nat.lt_succ_self _

theorem Frame.Records.weakens : (s.assigned f origin comment m).engine.Weakens s'.engine := by
  rw [h.engine]
  exact h.updates.weakens (note_spec _).1

theorem Frame.Records.keeps : s.Keeps s' where
  arch := by rw [h.engine]; rfl
  modes := by rw [h.engine]; rfl
  later := by rw [h.engine]; exact .refl _
  constraints := h.updates.constraints.trans (s.engine.constraints_assign _ _ _)
  instruction := by rw [h.instruction]
  listed := by
    intro hlisted id hid
    rw [h.instruction] at hid
    rw [h.updates.expressions, assigned, expressions_assign]
    rcases Array.mem_push.1 hid with hid | rfl
    · have hold := hlisted id hid
      have hlt : id < s.symbolic.expressions.size := by
        obtain ⟨x, hx, -⟩ := Option.map_eq_some_iff.1 hold
        exact (getElem?_eq_some_iff.1 hx).1
      rw [if_neg (by omega), Array.getElem?_push, if_neg (by omega)]
      exact hold
    · rw [if_pos rfl, Array.getElem?_push_size, Option.map_some, Option.map_some,
        id_note]
      rfl
  size := h.size_lt.le

end

namespace Step

theorem run_build {α : Type} {x : Build α} {r : Except Error α} (h : Answers s.modes.rules x r) :
    ∃ pool, exec (build x) s = outcome r (s.withPool pool) := by
  obtain ⟨pool, hrun⟩ := Engine.run_build h
  refine ⟨pool, ?_⟩
  simp only [exec, hrun]
  cases r <;> rfl

theorem run_modifySymbolic (change : Symbolic → Except Error Symbolic) (s : Frame) :
    exec (modifySymbolic change) s =
      match change s.symbolic with
      | .ok symbolic => .ok () { s with symbolic := symbolic }
      | .error e => .error e s := by
  have hrun : modifySymbolic change s.engine =
      (ofExcept (change s.symbolic) >>= fun symbolic =>
        modify fun e => { e with symbolic } : Exec Unit) s.engine := rfl
  unfold exec
  rw [hrun]
  cases change s.symbolic <;> rfl

theorem run_register (id : Nat) (s : Frame) : register id s =
    match s.arch.register id with
    | .ok reg => .ok reg s
    | .error e => .error e s := by
  show (ofExcept (s.arch.register id) : Step Register) s = _
  cases s.arch.register id <;> rfl

theorem run_operand (i : Nat) (s : Frame) : operand i s =
    match s.instruction.operands[i]? with
    | some op => .ok op s
    | none => .error (.invalidOperand s.instruction.opcode .missing) s := by
  show (match s.instruction.operands[i]? with
    | some op => pure op
    | none => refuse .missing : Step Operand) s = _
  cases s.instruction.operands[i]? <;> rfl

theorem run_readRegister (reg : Register) (s : Frame) :
    readRegister reg s = exec (build
      (if s.arch.isZeroRegister reg then zero reg.bits
        else if s.arch.isProgramCounter reg then
          constant (counterValue s.arch s.instruction).toNat reg.bits
        else s.symbolic.registerFormula s.machine reg)) s := by
  show (if s.arch.isZeroRegister reg = true then _
    else if s.arch.isProgramCounter reg = true then _ else _ : Step Formula) s = _
  split
  · rfl
  · split <;> rfl

theorem run_load (h : s.modes.isOn .memoryArray = false) :
    load access s = exec (build (s.symbolic.memoryFormula
      (s.modes.isOn .alignedMemory) s.machine access)) s := by
  show (if s.modes.isOn .memoryArray = true then _ else _ : Step Formula) s = _
  rw [h]
  rfl

theorem run_create (f : Formula) (origin : Origin) (comment : String) (s : Frame) :
    exec (create f origin comment (some s.instruction.address)) s =
      match checkOrigin f origin with
      | .ok _ => .ok s.symbolic.expressions.size
        (s.assigned f origin comment s.machine)
      | .error e => .error e s := by
  unfold exec
  rw [Engine.run_create]
  cases checkOrigin f origin <;> rfl

theorem run_record (h : id < s.symbolic.expressions.size) :
    ∃ symbolic, Updates id (note s.instruction.disassembly) s.symbolic symbolic ∧
      record id s = .ok () { s with
        engine.symbolic := symbolic,
        instruction.expressions := s.instruction.expressions.push id } := by
  have hrun : record id s =
      (if !s.instruction.disassembly.isEmpty then do
        exec (modifySymbolic fun symbolic =>
          symbolic.setDisassembly id s.instruction.disassembly)
        modify fun frame => { frame with
          instruction.expressions := frame.instruction.expressions.push id }
      else modify fun frame => { frame with
          instruction.expressions := frame.instruction.expressions.push id } : Step Unit) s := rfl
  rw [hrun]
  by_cases htext : s.instruction.disassembly.isEmpty = true
  · have hnote : note s.instruction.disassembly = fun x => x := by
      funext x
      simp only [note, if_pos htext]
    refine ⟨s.symbolic, ⟨fun i => by simp [hnote], rfl, rfl, rfl, rfl, rfl⟩, ?_⟩
    rw [if_neg (by simp [htext])]
    rfl
  · have hnote : note s.instruction.disassembly =
        fun x => { x with disassembly := s.instruction.disassembly } := by
      funext x
      simp only [note, if_neg htext]
    rcases s.symbolic.update_cases id
        fun x => { x with disassembly := s.instruction.disassembly } with
      ⟨-, symbolic, hupdate, hs⟩ | ⟨hge, -⟩
    · refine ⟨symbolic, hnote ▸ hs, ?_⟩
      rw [if_pos (by simp [htext]), run_bind, run_modifySymbolic, setDisassembly, hupdate]
      rfl
    · omega

theorem run_stamp (h : id < s.symbolic.expressions.size) (b : Bool) :
    ∃ symbolic, Updates id (fun x => { x with tainted := b }) s.symbolic symbolic ∧
      stamp (some id) b s = .ok () { s with symbolic := symbolic } := by
  have hrun : stamp (some id) b s =
    exec (modifySymbolic fun symbolic => symbolic.setTainted id b) s := rfl
  rcases s.symbolic.update_cases id fun x => { x with tainted := b } with
    ⟨-, symbolic, hupdate, hs⟩ | ⟨hge, -⟩
  · refine ⟨symbolic, hs, ?_⟩
    rw [hrun, run_modifySymbolic, setTainted, hupdate]
  · omega

/-- The number of the expression that was made, once it is recorded. -/
def recordNew (s : Frame) : Step Nat := do
  record s.symbolic.expressions.size
  return s.symbolic.expressions.size

theorem run_recordNew (s : Frame) (f : Formula) (origin : Origin) (comment : String) (m : Machine) :
    ∃ s', s.Records f origin comment m s' ∧
      recordNew s (s.assigned f origin comment m) = .ok s.symbolic.expressions.size s' := by
  have hlt : s.symbolic.expressions.size <
      (s.assigned f origin comment m).symbolic.expressions.size := by
    rw [Frame.assigned, expressions_assign, Array.size_push]
    omega
  obtain ⟨symbolic, hs, hrun⟩ := run_record hlt
  refine ⟨{
    engine := { (s.assigned f origin comment m).engine with symbolic }
    instruction := { s.instruction with
      expressions := s.instruction.expressions.push s.symbolic.expressions.size } },
    ⟨rfl, hs, rfl⟩, ?_⟩
  unfold recordNew
  rw [run_bind, hrun]
  rfl

theorem run_writeRoot (root : Register) (f : Formula) (comment : String) (s : Frame) :
    writeRoot root f comment s =
      match checkOrigin f (.register root) with
      | .ok _ => recordNew s (s.assigned f (.register root) comment
          (s.machine.setRegister root (s.evaluate f)))
      | .error e => .error e s := by
  have hrun : writeRoot root f comment s =
      (exec (create f (.register root) comment (some s.instruction.address)) >>=
        fun id => do
          let value ← evaluate f
          modify fun frame => { frame with
            engine.machine := frame.machine.setRegister root value }
          record id
          return id) s := rfl
  rw [hrun, run_bind, run_create]
  cases checkOrigin f (.register root) <;> rfl

/-- What a write to a register does: the root is written, unless it is the zero
register's. -/
theorem run_writeRegister (reg : Register) (f : Formula) (comment : String) (s : Frame) :
    write (.register reg) f comment s =
      if s.arch.isZeroRegister reg then .ok none s
      else (exec (build (s.symbolic.mergeRegister s.arch s.machine
          reg f)) >>= fun merged => register reg.parent >>= fun root =>
            some <$> writeRoot root merged comment) s := by
  have hrun : write (.register reg) f comment s =
      (if s.arch.isZeroRegister reg then pure none
      else exec (mergeRegister reg f) >>= fun merged =>
        register reg.parent >>= fun root =>
          some <$> writeRoot root merged comment : Step (Option Nat)) s := rfl
  rw [hrun]
  split <;> rfl

/-- The action sets taint, and does nothing else. -/
def Taints {α : Type} (x : Step α) : Prop := ∀ s, ∃ a taint, x s = .ok a { s with taint := taint }

theorem taints_setTaint (dst : Operand) (b : Bool) : Taints (setTaint dst b) := fun _ => ⟨_, _, rfl⟩

theorem taints_assignTaint (dst src : Operand) : Taints (assignTaint dst src) :=
  fun _ => ⟨_, _, rfl⟩

theorem taints_unionTaint (dst src₁ src₂ : Operand) : Taints (unionTaint dst src₁ src₂) :=
  fun _ => ⟨_, _, rfl⟩

theorem taints_isTainted (op : Operand) : Taints (isTainted op) := fun _ => ⟨_, _, rfl⟩

/-- What follows a write in an assignment changes taint alone, as `taint` says. -/
theorem run_assign {dst : Operand} {comment : String} {taint : Step Bool} (htaint : Taints taint)
    {s s₁ : Frame} {id : Option Nat} (hwrite : write dst f comment s = .ok id s₁)
    (hid : ∀ i, id = some i → i < s₁.symbolic.expressions.size) :
    ∃ b s₂ s', assign dst f comment taint s = .ok b s' ∧ s₁.Like s' ∧
      taint s₁ = .ok b s₂ ∧ s'.taint = s₂.taint := by
  obtain ⟨b, t, htainted⟩ := htaint s₁
  have hlike : s₁.Like { s₁ with taint := t } :=
    ⟨⟨rfl, rfl, rfl, rfl, rfl, rfl, rfl, rfl, rfl⟩, rfl⟩
  have hrun : assign dst f comment taint s =
      (stamp id b >>= fun _ => pure b) { s₁ with taint := t } := by
    unfold assign
    rw [run_bind, hwrite]
    simp only [run_bind, htainted]
  rw [hrun, run_bind]
  cases id with
  | none => exact ⟨b, _, _, rfl, hlike, htainted, rfl⟩
  | some i =>
    obtain ⟨symbolic, hupdates, hstamp⟩ := run_stamp (s := { s₁ with taint := t }) (hid i rfl) b
    rw [hstamp]
    exact ⟨b, _, _, rfl, hlike.trans (.stamp hupdates), htainted, rfl⟩

section

variable {reg root : Register} {merged : Formula} (hzero : s.arch.isZeroRegister reg = false)
  (hroot : s.arch.register? reg.parent = some root) (hisRoot : root.isRoot = true)
  (hmerged : Answers s.modes.rules (s.symbolic.mergeRegister s.arch s.machine reg f) (.ok merged))
  (hwidth : merged.width = root.bits)

include hzero hroot hisRoot hmerged hwidth

/-- What a write to a register records, if the formula of its root can be built. -/
theorem run_write_register (comment : String) :
    ∃ pool s', write (.register reg) f comment s = .ok (some s.symbolic.expressions.size) s' ∧
      (s.withPool pool).Records merged (.register root) comment
        (s.machine.setRegister root (s.evaluate merged)) s' := by
  obtain ⟨pool, hbuild⟩ := run_build hmerged
  have hcheck : checkOrigin merged (.register root) = .ok () := by
    simp [checkOrigin, hisRoot, hwidth]
  obtain ⟨s', hs', hrecord⟩ := run_recordNew (s.withPool pool) merged (.register root) comment
    (s.machine.setRegister root (s.evaluate merged))
  refine ⟨pool, s', ?_, hs'⟩
  rw [run_writeRegister, hzero, if_neg Bool.false_ne_true, run_bind, hbuild]
  show (register reg.parent >>= fun root => some <$> writeRoot root merged comment)
    (s.withPool pool) = _
  have hlook : register reg.parent (s.withPool pool) = .ok root (s.withPool pool) := by
    rw [run_register]
    simp only [Frame.withPool, Engine.withPool, Architecture.register, hroot]
  rw [run_bind, hlook]
  show (writeRoot root merged comment >>= fun id => pure (some id)) (s.withPool pool) = _
  rw [run_bind, run_writeRoot, hcheck]
  have hmachine : (s.withPool pool).machine.setRegister root
      ((s.withPool pool).evaluate merged) = s.machine.setRegister root (s.evaluate merged) := rfl
  simp only [hmachine, hrecord]
  rfl

/-- A register that is assigned a formula records the formula that its root comes to. -/
theorem run_assign_register (comment : String) {taint : Step Bool} (htaint : Taints taint) :
    ∃ b pool s₁ s₂ s', assign (.register reg) f comment taint s = .ok b s' ∧
      (s.withPool pool).Records merged (.register root) comment
        (s.machine.setRegister root (s.evaluate merged)) s₁ ∧ s₁.Like s' ∧
      taint s₁ = .ok b s₂ ∧ s'.taint = s₂.taint := by
  obtain ⟨pool, s₁, hwrite, hs₁⟩ := run_write_register hzero hroot hisRoot hmerged hwidth comment
  obtain ⟨b, s₂, s', hrun, hlike, htainted⟩ := run_assign htaint hwrite fun i hi => by
    exact Option.some.inj hi ▸ hs₁.size_lt
  exact ⟨b, pool, s₁, s₂, s', hrun, hs₁, hlike, htainted⟩

end

/-- A root register takes a formula of its width. -/
theorem run_setRoot {root : Register} (hroot : s.arch.register? root.id = some root)
    (hisRoot : root.isRoot = true) (hzero : s.arch.isZeroRegister root = false)
    (hwidth : f.width = root.bits) (comment : String) (b : Bool) :
    ∃ s', writeRegister root.id f comment b s = .ok () s' ∧ s.Keeps s' ∧
      (s.assigned f (.register root) comment
        (s.machine.setRegister root (s.evaluate f))).engine.Weakens s'.engine ∧
      s'.vars = s.vars ∧
      s'.taint = s.taint.setRegister root b := by
  have hmerge : s.symbolic.mergeRegister s.arch s.machine root f = pure f := by
    unfold Symbolic.mergeRegister
    rw [if_neg (by simp [hwidth]), if_pos hisRoot]
  obtain ⟨b', pool, s₁, s₂, s', hassign, hs₁, hlike, hset, htaint⟩ := run_assign_register hzero
    (beq_iff_eq.1 hisRoot ▸ hroot) hisRoot (by rw [hmerge]; exact .pure f) hwidth
    comment (taints_setTaint (.register root) b)
  refine ⟨s', ?_, ((Frame.Keeps.withPool s pool).trans hs₁.keeps).trans (.of_like hlike),
    ?_, ?_, ?_⟩
  · unfold writeRegister
    rw [run_bind, run_register, Architecture.register, hroot]
    show (assign (.register root) f comment (setTaint (.register root) b) >>=
      fun _ => pure ()) s = _
    rw [run_bind, hassign]
    rfl
  · refine Weakens.trans ?_ (hs₁.weakens.trans hlike.engine.weakens)
    exact (Engine.like_withPool (s.assigned f (.register root) comment _).engine pool).weakens
  · rw [hlike.engine.vars, hs₁.engine]
    rfl
  · cases hset
    rw [htaint]
    show s₁.taint.setRegister root b = _
    rw [hs₁.engine]
    rfl

theorem run_unknownValue {reg : Register} (hw : Formula.WordWidth reg.bits) (s : Frame) :
    ∃ pool, unknownValue reg s = .ok (.var s.vars.size reg.bits) { s with
      engine := s.engine.addVariable reg.bits (some "undefined") (s.machine.register reg)
        pool } := by
  obtain ⟨pool, hs⟩ := run_newVariable hw (some "undefined")
    (s.machine.register reg) s.modes.rules s.context
  refine ⟨pool, ?_⟩
  have hrun : unknownValue reg s = exec (build
    (newVariable reg.bits (some "undefined") (s.machine.register reg))) s := rfl
  rw [hrun]
  simp only [exec, build, hs]

theorem run_writeMemory (hbits : f.width = access.bits) (comment : String)
    (harray : s.modes.isOn .memoryArray = false) :
    writeMemory access f comment s =
      match checkOrigin f (.memory access) with
      | .ok _ => recordNew s (s.assigned f (.memory access) comment
          (s.machine.setValue access.address access.bytes (s.evaluate f)))
      | .error e => .error e s := by
  unfold writeMemory
  rw [if_neg (by simp [hbits])]
  show (exec (create f (.memory access) comment (some s.instruction.address)) >>= _) s = _
  rw [run_bind, run_create]
  cases checkOrigin f (.memory access) with
  | error e => rfl
  | ok _ =>
    show (if s.modes.isOn .memoryArray = true then _ else _ : Step Nat) _ = _
    rw [harray]
    rfl

theorem run_volatile (f : Formula) (comment : String) (b : Bool) (s : Frame) :
    volatile f comment b s =
      (recordNew s >>= fun id => stamp (some id) b) (s.assigned f .volatile comment s.machine) := by
  have hcreate : volatile f comment b s =
      (exec (create f .volatile comment (some s.instruction.address)) >>=
        fun id => record id >>= fun _ => stamp (some id) b) s := rfl
  rw [hcreate, run_bind, run_create]
  show (record s.symbolic.expressions.size >>= fun _ =>
    stamp (some s.symbolic.expressions.size) b) _ = _
  rw [run_bind, run_bind, recordNew, run_bind]
  cases record s.symbolic.expressions.size _ <;> rfl

/-- What the arrival at a target records: nothing, or the outcomes of the jump if they can
be built. -/
theorem run_arrival (conditional : Bool) {r : Except Error (List Branch)}
    (h : Answers s.modes.rules (outcomes f s.instruction.address (s.evaluate f).toUInt64) r) :
    ∃ pool, arrive f conditional s =
      let goOn := setNext true (!conditional ||
        (s.evaluate f).toUInt64 != s.instruction.fallThrough)
        (s.evaluate f).toUInt64
      if s.modes.isOn .pcTrackingSymbolic && !f.symbolic then goOn s
      else match r with
        | .ok bs => goOn { s with engine := { s.engine.withPool pool with
            symbolic := { s.symbolic with
              constraints := s.symbolic.constraints.push { branches := bs } } } }
        | .error e => .error e (after (goOn (s.withPool pool))) := by
  generalize htarget : (s.evaluate f).toUInt64 = target at h
  have hrun : arrive f conditional s =
      exec (if s.modes.isOn .pcTrackingSymbolic && !f.symbolic then pure ()
        else build (outcomes f s.instruction.address target) >>= fun branches =>
          modify fun e => { e with symbolic := { e.symbolic with
            constraints := e.symbolic.constraints.push { branches } } })
        { s with instruction := { s.instruction with
            branch := true
            taken := !conditional || target != s.instruction.fallThrough
            next := target } } := by
    subst htarget
    rfl
  obtain ⟨pool, hbuild⟩ := Engine.run_build h
  refine ⟨pool, ?_⟩
  rw [hrun]
  by_cases hskip : (s.modes.isOn .pcTrackingSymbolic && !f.symbolic) = true
  · simp only [if_pos hskip]
    rfl
  · simp only [if_neg hskip]
    unfold exec
    rw [Exec.run_bind, hbuild]
    cases r <;> rfl

end Step

/-! The parts of an address. -/

/-- What is shown of the parts of an address is shown of their sum. -/
theorem Step.effectiveAddress_composes {shown : ∀ {α : Type}, Step α → (α → Prop) → Prop}
    (C : Composes shown) (good : Int → Formula → Prop) (value : Option Register → Int)
    (hnone : value none = 0) (harch : shown Step.arch (· = arch))
    (hword : ∀ n : Int, shown (exec (Exec.build (constant (Word.wrap arch.addressWidth n)
      arch.addressWidth))) (good n))
    (hscale : ∀ n : Nat, shown (exec (Exec.build (constant n arch.addressWidth))) (good n))
    (hpart : ∀ {reg}, access.base = some reg ∨ access.index = some reg →
      shown (addressPart reg) (good (value reg))) (hadd : ∀ {f g x y}, good x f → good y g →
      shown (exec (Exec.build (add f g))) (good (x + y))) (hmul : ∀ {f g x y}, good x f → good y g →
      shown (exec (Exec.build (mul f g))) (good (x * y))) :
    shown (effectiveAddress access) (good (access.displacement.toInt + value access.base +
      value access.index * (max access.scale 1 : Nat))) := by
  have hstart : ∀ {d : Formula} {x : Int}, good x d →
      shown (addressStart access d) (good (x + value access.base)) := by
    intro d x hd
    unfold addressStart
    cases hbase : access.base with
    | none => exact C.pure (by simpa [hnone] using hd)
    | some reg =>
      refine C.bind (hpart (.inl hbase)) fun base hgood => ?_
      rw [add_comm]
      exact hadd hgood hd
  have hscaled : ∀ {reg : Register}, access.index = some reg →
      shown (scaledIndex reg access.scale) (good (value reg * (max access.scale 1 : Nat))) := by
    intro reg hreg
    refine C.bind (hpart (.inr hreg)) fun index hgood => ?_
    by_cases hone : access.scale ≤ 1
    · rw [if_pos hone]
      refine C.pure ?_
      rwa [max_eq_right hone, Nat.cast_one, Int.mul_one]
    · rw [if_neg hone, max_eq_left (by omega)]
      refine C.bind harch fun found hfound => ?_
      subst hfound
      exact C.bind (hscale access.scale) fun factor hfactor => hmul hgood hfactor
  refine C.bind harch fun found hfound => ?_
  subst hfound
  refine C.bind (hword access.displacement.toInt) fun d hd => C.bind (hstart hd) fun f hf => ?_
  cases hindex : access.index with
  | none => exact C.pure (by simpa [hnone] using hf)
  | some reg => exact C.bind (hscaled hindex) fun g hg => hadd hf hg

end Concolic
