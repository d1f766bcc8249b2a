import Concolic.Proofs.Abreast
import Concolic.Proofs.Lockstep.Diagonal
import Concolic.Proofs.Lockstep.Memory

/-
  What one run of an instruction keeps up.

  An upkeep is a property of the frames along the run of one instruction. The parts of
  an instruction can change a frame in a few ways only: an expression is recorded and
  bound, the taint of a destination that was written is set, an expression is stamped,
  a variable is made, an operand is resolved, control is steered. Where the property
  survives these (`Upkeep.Laws`), it survives every instruction, however it ends
  (`Upkeep.Steps.execute`): a run is in lockstep with itself, so each operation is
  covered by what is known of lockstep.
-/

namespace Concolic

open Step Symbolic Expression Architecture Context

variable {f : Formula} {s s' : Frame} {m : Machine} {dst : Operand} {origin : Origin}
  {reg : Register} {opcode : Nat} {act : Step (Option Fault)}

/-! Changes of a frame. -/

/-- The recording of a destination has this origin. -/
def Operand.WrittenAs : Operand → Origin → Prop
  | .register reg, .register root => root.id = reg.parent
  | .memory access, .memory other => other = access
  | _, _ => False

namespace Frame

/-- A value and what becomes of the machine with it: a root register, written through a
register that takes values, memory, or an intermediate value. -/
inductive Stores (s : Frame) (f : Formula) : Origin → Machine → Prop where
  | root {reg dst : Register} (has : s.arch.Has reg) (isRoot : reg.isRoot = true)
      (width_eq : f.width = reg.bits) (known : dst.Known) (parent_eq : dst.parent = reg.id)
      (nonZero : s.arch.isZeroRegister dst = false) :
      Stores s f (.register reg) (s.machine.setRegister reg (s.evaluate f))
  | memory {access : Access} (width_eq : f.width = access.bits) (whole : access.bits % 8 = 0) :
      Stores s f (.memory access) (s.machine.setValue access.address access.bytes (s.evaluate f))
  | volatile : Stores s f .volatile s.machine

theorem Stores.known (h : s.Stores f origin m) (hreg : origin = .register reg) : reg.Known := by
  subst hreg
  cases h with
  | root has => exact ⟨_, has⟩

/-- The second frame has the expressions of the first, and lists those that the first
lists. -/
structure Follows (s s' : Frame) : Prop where
  arch : s'.arch = s.arch
  widens : s.context.Widens s'.context
  grows : s.symbolic.Grows s'.symbolic
  listed : ∀ id ∈ s.instruction.expressions, id ∈ s'.instruction.expressions

theorem Follows.refl (s : Frame) : s.Follows s := ⟨rfl, .refl _, .refl _, fun _ h => h⟩

theorem Follows.trans {a b c : Frame} (h₁ : a.Follows b) (h₂ : b.Follows c) : a.Follows c :=
  ⟨h₂.arch.trans h₁.arch, h₁.widens.trans h₂.widens, h₁.grows.trans h₂.grows,
    fun id hid => h₂.listed id (h₁.listed id hid)⟩

theorem Follows.lists (h : s.Follows s') {x : Expression} (hx : s.Lists x) :
    ∃ y, s'.Lists y ∧ y.core = x.core := by
  obtain ⟨y, hy, hcore⟩ := h.grows.exists hx.2
  have hsame : y.id = x.id := by
    show y.core.id = x.core.id
    rw [hcore]
  exact ⟨y, ⟨hsame ▸ h.listed _ hx.1, hsame ▸ hy⟩, hcore⟩

theorem Quiet.follows (h : s.Quiet s') : s.Follows s' := by
  obtain ⟨pool, array, rfl⟩ := h
  exact ⟨rfl, .of_vars rfl, .of_expressions rfl, fun _ h => h⟩

theorem Follows.stamp {id : Nat} {b : Bool} {symbolic : Symbolic}
    (h : Updates id (fun x => { x with tainted := b }) s.symbolic symbolic) :
    s.Follows { s with symbolic := symbolic } :=
  ⟨rfl, .refl _, h.grows fun _ => rfl, fun _ h => h⟩

section

variable {s s' : Frame} {f : Formula} {origin : Origin} {comment : String} {m : Machine}
  (h : s.Records f origin comment m s')

include h

theorem Records.grows : s.symbolic.Grows s'.symbolic :=
  (grows_push (s.engine.expressions_assign _ origin m)).trans
    (h.updates.grows fun x => by unfold note; split <;> rfl)

theorem Records.follows : s.Follows s' where
  arch := h.keeps.arch
  widens := by
    rw [h.engine]
    exact .refl _
  grows := h.grows
  listed id hid := by
    rw [h.instruction]
    exact Array.mem_push_of_mem _ hid

theorem Records.lists :
    ∃ x, s'.Lists x ∧ x.origin = origin ∧ x.id = s.symbolic.expressions.size := by
  let x := (s.newExpression f origin comment).note s.instruction.disassembly
  have hid : x.id = s.symbolic.expressions.size := id_note _ _
  have hcore : x.core = (s.newExpression f origin comment).core := by
    show (note _ _).core = _
    unfold note
    split <;> rfl
  refine ⟨x, ⟨?_, ?_⟩, origin_of_core hcore, hid⟩
  · rw [hid, h.instruction]
    exact Array.mem_push_self
  · rw [hid, h.updates.expressions, if_pos rfl, assigned,
      Engine.expressions_assign, Array.getElem?_push_size]
    rfl

theorem Records.grounded {words bytes : Prop}
    (hs : (s.assigned f origin comment m).Grounded words bytes) :
    s'.Grounded words bytes := by
  have harch := h.keeps.arch
  have hcontext : s'.context = s.context := by rw [h.engine]; rfl
  unfold Engine.Grounded
  rw [harch, hcontext]
  exact Grounded.updates hs h.updates fun x => by
    unfold note
    split <;> rfl

end

/-- A destination was written: it is a zero register, which takes no value, or an
expression of it is listed. -/
def Wrote (s : Frame) (dst : Operand) : Prop :=
  (∃ reg, dst = .register reg ∧ s.arch.isZeroRegister reg = true) ∨
    ∃ x, s.Lists x ∧ dst.WrittenAs x.origin

theorem Wrote.follows (h : s.Wrote dst) (hs : s.Follows s') : s'.Wrote dst := by
  rcases h with ⟨reg, hreg, hzero⟩ | ⟨x, hx, horigin⟩
  · exact .inl ⟨reg, hreg, hs.arch ▸ hzero⟩
  · obtain ⟨y, hy, hcore⟩ := hs.lists hx
    exact .inr ⟨y, hy, origin_of_core hcore ▸ horigin⟩

/-- A destination is written, with the number of the expression that is recorded for it:
none for a zero register. -/
inductive Writes (s : Frame) (dst : Operand) : Option Nat → Frame → Prop where
  | dropped {reg : Register} (dst_eq : dst = .register reg)
      (zero : s.arch.isZeroRegister reg = true) : Writes s dst none s
  | recorded {s₁ s' : Frame} {f : Formula} {origin : Origin} {comment : String} {m : Machine}
      (quiet : s.Quiet s₁) (stores : s₁.Stores f origin m)
      (records : s₁.Records f origin comment m s') (written : dst.WrittenAs origin) :
      Writes s dst (some s₁.symbolic.expressions.size) s'

section

variable {i : Option Nat} (h : s.Writes dst i s')

include h

theorem Writes.follows : s.Follows s' := by
  cases h with
  | dropped => exact .refl s
  | recorded quiet _ records => exact quiet.follows.trans records.follows

theorem Writes.wrote : s'.Wrote dst := by
  cases h with
  | dropped dst_eq zero => exact .inl ⟨_, dst_eq, zero⟩
  | recorded _ _ records written =>
    obtain ⟨x, hlists, horigin, -⟩ := records.lists
    exact .inr ⟨x, hlists, horigin ▸ written⟩

theorem Writes.bound (id : Nat) (hid : i = some id) : id < s'.symbolic.expressions.size := by
  cases h with
  | dropped => cases hid
  | recorded _ _ records _ =>
    obtain rfl := Option.some.inj hid
    exact records.size_lt

end

/-- The places of a destination have its taint as a whole. -/
def Even (s : Frame) (dst : Operand) : Prop :=
  ∀ place, dst.Covers place →
    s.taint.isPlace place = s.taint.isOperand s.pointerTaint dst

/-- The frame once control is steered: the instruction says where it goes, and the path
is another. -/
def steered (s : Frame) (branch taken : Bool) (next : Address) (pool : Pool)
    (constraints : Array PathConstraint) : Frame :=
  { engine := { s.engine.withPool pool with symbolic := { s.symbolic with constraints } }
    instruction := { s.instruction with branch, taken, next } }

/-- Where the variables have values of their widths, the address fits the program counter. -/
def Within (s : Frame) (next : Address) : Prop :=
  s.Bounded → next.toNat < Word.modulus s.arch.programCounter.bits

end Frame

/-! Upkeeps. -/

/-- What is kept up along the run of an instruction that starts from `start`: where
registers are bound to words if `words`, and bytes to bytes of words if `bytes`, `holds`
is so within the instruction, `final` when it is complete, and `failed` when it has
failed. -/
structure Upkeep where
  start : Frame
  words : Prop
  bytes : Prop
  /-- The operands that may be written. -/
  target : Operand → Prop := Operand.Known
  /-- Whether an operand with a taint that is not even may keep it. -/
  uneven : Prop := True
  holds : Frame → Prop
  final : Frame → Prop
  failed : Frame → Prop

namespace Upkeep

structure Sound (U : Upkeep) (s : Frame) : Prop where
  arch : s.arch = U.start.arch
  modes : s.modes = U.start.modes
  widens : U.start.context.Widens s.context
  grounded : s.Grounded U.words U.bytes

structure Held (U : Upkeep) (s : Frame) : Prop extends U.Sound s where
  operands : ∀ op ∈ s.instruction.operands, op.Known
  holds : U.holds s

structure Final (U : Upkeep) (s : Frame) : Prop extends U.Sound s where
  final : U.final s

structure Failed (U : Upkeep) (s : Frame) : Prop extends U.Sound s where
  failed : U.failed s

/-- What a part leaves when it is done, and when it fails. -/
def Does {α : Type} (U : Upkeep) (s : Frame) (x : Step α) : Prop :=
  Yields (fun _ s' => U.Held s' ∧ s.Follows s') U.Failed (x s)

/-- What the property has to survive beside writes. -/
structure Base (U : Upkeep) : Prop where
  words : U.bytes → U.words
  bytes : U.words → U.bytes ∨ U.start.modes.isOn .memoryArray = true
  known : ∀ {dst}, U.target dst → dst.Known := by exact id
  root : ∀ {reg}, U.start.arch.Has reg → reg.isRoot = true →
    U.start.arch.isZeroRegister reg = false → U.target (.register reg) := by
      exact fun h _ _ => ⟨_, h⟩
  final : ∀ {s}, U.Held s → U.final s
  failed : ∀ {s}, U.Held s → U.failed s
  quiet : ∀ {s s'}, U.Held s → s.Quiet s' → U.holds s'
  fresh : ∀ {s context}, U.Held s → s.context.Widens context →
    U.holds { s with context := context }
  steer : ∀ {s} branch taken next pool constraints, U.Held s → (branch = true → s.Within next) →
    U.final (s.steered branch taken next pool constraints) ∧
      U.failed (s.steered branch taken next pool constraints)

/-- The property survives what the parts of a write do. -/
structure Laws (U : Upkeep) : Prop extends Base U where
  record : ∀ {s s' f origin comment m}, U.Held s → s.Stores f origin m →
    s.Records f origin comment m s' → U.holds s'
  retaint : ∀ {s dst} (b : Bool), U.Held s → U.target dst → s.Wrote dst →
    U.holds { s with taint := (s.taint.setOperand b dst).2 }
  stamp : ∀ {s id symbolic} {b : Bool}, U.Held s →
    Updates id (fun x => { x with tainted := b }) s.symbolic symbolic →
    U.holds { s with symbolic := symbolic }
  /-- A store into the array that fails once its bytes are bound. -/
  torn : ∀ {s f access comment m}, U.Held s → s.Stores f (.memory access) m → ¬ U.words →
    s.modes.isOn .memoryArray = true →
    U.failed (s.assigned f (.memory access) comment m)

/-- The property survives the writes of an instruction, each as a whole. -/
structure Steps (U : Upkeep) : Prop extends Base U where
  set : ∀ {s dst f} (comment : String) (b : Bool), U.Held s → U.target dst →
    f.Proper s.scope U.words → U.Does s (assign dst f comment (setTaint dst b))
  keep : ∀ {s dst f} (comment : String), U.Held s → U.target dst → U.uneven ∨ s.Even dst →
    f.Proper s.scope U.words → U.Does s (assign dst f comment (isTainted dst))
  exchange : ∀ {s dst src f g} (comment : String) (b c : Bool), U.Held s → U.target dst →
    U.target src → f.Proper s.scope U.words →
    g.Proper s.scope U.words → U.Does s (exchange dst src f g comment b c)
  volatile : ∀ {s f} (comment : String) (b : Bool), U.Held s →
    f.Proper s.scope U.words → U.Does s (volatile f comment b)

variable {U : Upkeep}

theorem Sound.follows (h : U.Sound s) (hs : s.Follows s')
    (hmodes : s'.modes = s.modes) (hgrounded : s'.Grounded U.words U.bytes) :
    U.Sound s' :=
  ⟨hs.arch.trans h.arch, hmodes.trans h.modes, h.widens.trans hs.widens, hgrounded⟩

section

variable (L : U.Base) {s s' : Frame} (h : U.Held s)

include L h

namespace Base

theorem failedOf : U.Failed s := ⟨h.toSound, L.failed h⟩

theorem finalOf : U.Final s := ⟨h.toSound, L.final h⟩

theorem quieted (hs : s.Quiet s') (hgrounded : s'.Grounded U.words U.bytes) : U.Held s' := by
  have hholds := L.quiet h hs
  obtain ⟨pool, array, rfl⟩ := hs
  exact ⟨h.toSound.follows (Frame.Quiet.follows ⟨_, _, rfl⟩) rfl hgrounded, h.operands, hholds⟩

theorem withPool (pool : Pool) : U.Held (s.withPool pool) :=
  L.quieted h (s.quiet_withPool pool) h.grounded

theorem steers (branch taken : Bool) (next : Address) (pool : Pool)
    (hnext : branch = true → s.Within next) {constraints : Array PathConstraint}
    (hpath : ∀ p ∈ constraints, ∀ b ∈ p.branches,
      b.constraint.Formed s.scope) :
    U.Final (s.steered branch taken next pool constraints) ∧
      U.Failed (s.steered branch taken next pool constraints) := by
  have hsound : U.Sound (s.steered branch taken next pool constraints) :=
    ⟨h.arch, h.modes, h.widens.trans (.of_vars rfl),
      Grounded.withPath h.grounded hpath⟩
  have ⟨hfinal, hfailed⟩ := L.steer branch taken next pool constraints h hnext
  exact ⟨⟨hsound, hfinal⟩, ⟨hsound, hfailed⟩⟩

end Base

end

namespace Laws

variable (L : U.Laws) {s s' : Frame}

include L

section

variable (h : U.Held s)

include h

theorem assigned (hf : f.Proper s.scope U.words)
    (hcheck : checkOrigin f origin = .ok ()) (hstores : s.Stores f origin m) (comment : String) :
    (s.assigned f origin comment m).Grounded U.words U.bytes :=
  assigned_grounded h.grounded L.words hf hcheck (fun _ hreg => hstores.known hreg) comment m

theorem recorded (hf : f.Proper s.scope U.words)
    (hcheck : checkOrigin f origin = .ok ()) (hstores : s.Stores f origin m) (comment : String) :
    ∃ s', recordNew s (s.assigned f origin comment m) =
        .ok s.symbolic.expressions.size s' ∧ U.Held s' ∧
      s.Records f origin comment m s' := by
  obtain ⟨s', hs, hrun⟩ := run_recordNew s f origin comment m
  have hassigned := L.assigned h hf hcheck hstores comment
  refine ⟨s', hrun, ⟨h.toSound.follows hs.follows hs.keeps.modes (hs.grounded hassigned), ?_,
    L.record h hstores hs⟩, hs⟩
  rw [hs.keeps.same Instruction.operands]
  exact h.operands

/-- A write of a register records its root, unless it is a zero register. -/
theorem writeRegister (hreg : reg.Known) (hf : f.Proper s.scope U.words)
    (comment : String) :
    Yields (fun i s' => U.Held s' ∧ s.Writes (.register reg) i s') U.Failed
      (write (.register reg) f comment s) := by
  rw [run_writeRegister]
  split
  · next hzero => exact ⟨h, .dropped rfl hzero⟩
  · next hzero =>
    obtain ⟨r, hr, hmerged, -⟩ : Build.Ensures s.modes.rules
        (s.symbolic.mergeRegister s.arch s.machine reg f) _ :=
      Grounded.mergeRegister h.grounded hf _ _
    obtain ⟨pool, hrun⟩ := run_build hr
    have hpool := L.withPool h pool
    rw [run_bind, hrun]
    -- until the root is found and the width checked, only the pool has changed
    cases r with
    | error e => exact L.failedOf hpool
    | ok merged =>
      show Yields _ _ ((register reg.parent >>= fun root =>
        some <$> writeRoot root merged comment) (s.withPool pool))
      rw [run_bind, run_register, Architecture.register]
      cases hroot : (s.withPool pool).arch.register? reg.parent with
      | none => exact L.failedOf hpool
      | some root =>
        show Yields _ _ ((writeRoot root merged comment >>= fun id =>
          pure (some id)) (s.withPool pool))
        rw [run_bind, run_writeRoot]
        cases hcheck : checkOrigin merged (.register root) with
        | error e => exact L.failedOf hpool
        | ok _ =>
          obtain ⟨hisRoot, hwidth⟩ := checkOrigin_register hcheck
          have hstores : (s.withPool pool).Stores merged (.register root) _ :=
            .root (has_of_register? hroot) hisRoot hwidth hreg (register?_id hroot).symm
              (Bool.eq_false_iff.2 hzero)
          obtain ⟨s', hrecord, hs', hrecords⟩ :=
            L.recorded hpool (hmerged merged rfl) hcheck hstores comment
          rw [hrecord]
          exact ⟨hs', .recorded (s.quiet_withPool pool) hstores hrecords (register?_id hroot)⟩

/-- A write of memory records the access; where memory is one array, an array in place of a
word may cut the store short. -/
theorem writeMemory {access : Access} (hdst : (Operand.memory access).Known)
    (hf : f.Proper s.scope U.words) (comment : String) :
    Yields (fun i s' => U.Held s' ∧ s.Writes (.memory access) i s') U.Failed
      (write (.memory access) f comment s) := by
  show Yields _ _ ((Step.writeMemory access f comment >>= fun id => pure (some id)) s)
  rw [run_bind]
  cases hcheck : checkOrigin f (.memory access) with
  | error e =>
    obtain ⟨e', hrun⟩ := run_store_error (s := s) hcheck comment
    rw [hrun]
    exact L.failedOf h
  | ok _ =>
    obtain ⟨hwidth, hwhole⟩ := checkOrigin_memory hcheck
    obtain ⟨s₁, hquiet, hgrounded, hrun⟩ := run_store h.grounded L.words hdst hf hcheck comment rfl
    have hs₁ := L.quieted h hquiet hgrounded
    obtain ⟨pool, array, rfl⟩ := hquiet
    have hstores : (s.quieted pool array).Stores f (.memory access)
        (s.machine.setValue access.address access.bytes (s.evaluate f)) :=
      .memory hwidth hwhole
    rcases hrun with hrun | ⟨⟨hwords, hmode⟩, e, hrun⟩
    · obtain ⟨s', hrecord, hs', hrecords⟩ := L.recorded hs₁ hf hcheck hstores comment
      rw [hrun.trans hrecord]
      exact ⟨hs', .recorded ⟨pool, array, rfl⟩ hstores hrecords rfl⟩
    -- the expression is in the table and bound, and the instruction does not list it
    · rw [hrun]
      exact ⟨⟨hs₁.arch, hs₁.modes, hs₁.widens, L.assigned hs₁ hf hcheck hstores comment⟩,
        L.torn hs₁ hstores hwords hmode⟩

theorem write (hdst : dst.Known) (hf : f.Proper s.scope U.words) (comment : String) :
    Yields (fun i s' => U.Held s' ∧ s.Writes dst i s') U.Failed (write dst f comment s) := by
  cases dst with
  | immediate imm => exact L.failedOf h
  | register reg => exact L.writeRegister h hdst hf comment
  | memory access => exact L.writeMemory h hdst hf comment

theorem stamped {i : Option Nat} (hi : ∀ id, i = some id → id < s.symbolic.expressions.size)
    (b : Bool) : U.Does s (Step.stamp i b) := by
  cases i with
  | none => exact ⟨h, .refl s⟩
  | some id =>
    obtain ⟨symbolic, hs, hrun⟩ := run_stamp (hi id rfl) b
    unfold Does
    rw [hrun]
    exact ⟨⟨⟨h.arch, h.modes, h.widens, Grounded.updates h.grounded hs fun _ => rfl⟩,
      h.operands, L.stamp h hs⟩, .stamp hs⟩

/-- A destination is written, then its taint is found and stamped on. -/
theorem assign (hdst : dst.Known) (hf : f.Proper s.scope U.words) (comment : String)
    {x : Step Bool} (hx : ∀ s, U.Held s → s.Wrote dst → U.Does s x) :
    U.Does s (assign dst f comment x) := by
  refine (L.write h hdst hf comment).bind fun i s₁ h₁ => ?_
  obtain ⟨h₁, hwrites⟩ := h₁
  refine (hx s₁ h₁ hwrites.wrote).bind fun b s₂ h₂ => ?_
  obtain ⟨h₂, hfollows₂⟩ := h₂
  have hi₂ : ∀ id, i = some id → id < s₂.symbolic.expressions.size :=
    fun id hid => (hwrites.bound id hid).trans_le hfollows₂.grows.size_le
  refine (L.stamped h₂ hi₂ b).bind fun _ s₃ h₃ => ?_
  exact ⟨h₃.1, (hwrites.follows.trans hfollows₂).trans h₃.2⟩

theorem setTaint (hdst : U.target dst) (hwrote : s.Wrote dst) (b : Bool) :
    U.Does s (setTaint dst b) :=
  ⟨⟨⟨h.arch, h.modes, h.widens, h.grounded⟩, h.operands, L.retaint b h hdst hwrote⟩,
    ⟨rfl, .refl _, .refl _, fun _ h => h⟩⟩

theorem exchange {dst src : Operand} (hdst : U.target dst) (hsrc : U.target src) {f g : Formula}
    (hf : f.Proper s.scope U.words) (hg : g.Proper s.scope U.words)
    (comment : String) (b c : Bool) : U.Does s (exchange dst src f g comment b c) := by
  refine (L.write h (L.known hdst) hf comment).bind fun i s₁ h₁ => ?_
  obtain ⟨h₁, hwrites⟩ := h₁
  have hfollows₁ := hwrites.follows
  refine (L.write h₁ (L.known hsrc) (hg.mono hfollows₁.widens.scope) comment).bind fun j s₂ h₂ => ?_
  obtain ⟨h₂, hwrites'⟩ := h₂
  have hfollows₂ := hwrites'.follows
  refine (L.setTaint h₂ hdst (hwrites.wrote.follows hfollows₂) b).bind fun b s₃ h₃ => ?_
  obtain ⟨h₃, hfollows₃⟩ := h₃
  refine (L.setTaint h₃ hsrc (hwrites'.wrote.follows hfollows₃) c).bind fun c s₄ h₄ => ?_
  obtain ⟨h₄, hfollows₄⟩ := h₄
  have hrest := hfollows₃.trans hfollows₄
  have hi₄ : ∀ id, i = some id → id < s₄.symbolic.expressions.size :=
    fun id hid => (hwrites.bound id hid).trans_le (hfollows₂.trans hrest).grows.size_le
  refine (L.stamped h₄ hi₄ b).bind fun _ s₅ h₅ => ?_
  obtain ⟨h₅, hfollows₅⟩ := h₅
  have hj₅ : ∀ id, j = some id → id < s₅.symbolic.expressions.size :=
    fun id hid => (hwrites'.bound id hid).trans_le (hrest.trans hfollows₅).grows.size_le
  refine (L.stamped h₅ hj₅ c).mono (fun _ s₆ h₆ => ⟨h₆.1, ?_⟩) fun _ he => he
  exact ((hfollows₁.trans hfollows₂).trans (hrest.trans hfollows₅)).trans h₆.2

theorem volatile (hf : f.Proper s.scope U.words) (comment : String) (b : Bool) :
    U.Does s (volatile f comment b) := by
  obtain ⟨s', hrecord, hs', hrecords⟩ := L.recorded h hf rfl .volatile comment
  unfold Does
  rw [run_volatile, run_bind, hrecord]
  refine (L.stamped hs' (fun id hid => ?_) b).mono
    (fun _ _ h => ⟨h.1, hrecords.follows.trans h.2⟩) fun _ he => he
  obtain rfl := Option.some.inj hid
  exact hrecords.size_lt

end

theorem steps : U.Steps where
  toBase := L.toBase
  set comment b h hdst hf :=
    L.assign h (L.known hdst) hf comment fun _ h hwrote => L.setTaint h hdst hwrote b
  keep comment h hdst _ hf := L.assign h (L.known hdst) hf comment fun s h _ => ⟨h, .refl s⟩
  exchange comment b c h hdst hsrc hf hg := L.exchange h hdst hsrc hf hg comment b c
  volatile comment b h hf := L.volatile h hf comment b

end Laws

/-! A run in lockstep with itself. -/

/-- The frame has the instruction, the variables and the taint of a world. -/
structure Rests (w s : Frame) : Prop where
  instruction : s.instruction = w.instruction
  vars : s.vars = w.vars
  machine : s.machine = w.engine.machine
  taint : s.taint = w.engine.taint
  modes : s.modes = w.engine.modes

/-- Two runs that are the same one, in which the upkeep is kept. -/
def alone (U : Upkeep) : Simulation where
  arch := U.start.arch
  World := Frame
  le w w' := w.engine.context.Widens w'.engine.context
  frames w s t := s = t ∧ Rests w s ∧ U.Held s
  final s t := s = t ∧ U.Final s
  failed _ s t := s = t ∧ U.Failed s
  sure := False
  source := Operand.Known
  legible _ op := ∀ access, op = .memory access → op.Known
  target := U.target
  level _ _ := false
  knows w _ f g := f = g ∧ f.Proper w.scope U.words
  taint _ b b' := b = b'
  whole w dst := U.uneven ∨ w.Even dst

section

open Simulation

variable {α : Type} {w s : Frame} {x : Step α} {post : α → α → Prop}

theorem Rests.scope (h : Rests w s) : s.scope = w.scope := by
  unfold Context.scope
  rw [h.vars]

theorem Rests.bounded (h : Rests w s) (hw : w.Bounded) : s.Bounded := by
  unfold Context.Bounded
  rw [h.vars]
  exact hw

theorem Rests.widens (h : Rests w s) : w.engine.context.Widens s.context := .of_vars h.vars

theorem Rests.quiet (h : Rests w s) (hs : s.Quiet s') : Rests w s' := by
  obtain ⟨pool, array, rfl⟩ := hs
  exact ⟨h.instruction, h.vars, h.machine, h.taint, h.modes⟩

theorem Rests.even (h : Rests w s) : s.Even dst ↔ w.Even dst := by
  unfold Frame.Even Engine.pointerTaint
  rw [h.taint, h.modes]

theorem Rests.evaluate (h : Rests w s) (f : Formula) : s.evaluate f = w.engine.evaluate f := by
  unfold Engine.evaluate Engine.valuation valuation variableValue
  rw [h.vars, h.machine]

/-- What one run does, two equal ones do. -/
theorem outcomes {answers : α → Frame → Prop} {errors : Frame → Prop}
    {r : EStateM.Result Error Frame α} (h : Yields answers errors r) :
    Step.Outcomes (fun _ s t => s = t ∧ errors s) (fun a b s t => a = b ∧ s = t ∧ answers a s)
      r r := by
  cases r with
  | ok a s => exact ⟨rfl, rfl, h⟩
  | error e s => exact ⟨rfl, rfl, h⟩

/-- What two equal runs that read do, one does. -/
theorem of_read_eq_ok {a : α} (h : U.alone.Reads w x x post) (hrests : Rests w s) (hs : U.Held s)
    (hrun : x s = .ok a s') : (Rests w s' ∧ U.Held s') ∧ post a a := by
  have houtcomes := h s s ⟨rfl, hrests, hs⟩
  rw [hrun] at houtcomes
  exact ⟨houtcomes.1.2, houtcomes.2⟩

/-- What two equal runs do, one does. -/
theorem yields {answers : α → α → Frame → Frame → Prop} {errors : Frame → Frame → Prop}
    {r : EStateM.Result Error Frame α} (h : Step.Outcomes (fun _ => errors) answers r r) :
    Yields (fun a s => answers a a s s) (fun s => errors s s) r := by
  cases r with
  | ok a s => exact h
  | error e s => exact h.2

namespace Base

variable (L : U.Base)

include L

theorem reads (h : ∀ s, Rests w s → U.Held s →
      Yields (fun a s' => (s.Quiet s' ∧ s'.Grounded U.words U.bytes) ∧ post a a)
        (fun s' => s.Quiet s' ∧ s'.Grounded U.words U.bytes) (x s)) :
    U.alone.Reads w x x post := by
  rintro s t ⟨rfl, hrests, hs⟩
  refine (outcomes (h s hrests hs)).mono (fun _ s' t' he => ?_) fun a b s' t' ha => ?_
  · obtain ⟨rfl, hquiet, hgrounded⟩ := he
    exact ⟨rfl, L.failedOf (L.quieted hs hquiet hgrounded)⟩
  · obtain ⟨rfl, rfl, ⟨hquiet, hgrounded⟩, hpost⟩ := ha
    exact ⟨⟨rfl, hrests.quiet hquiet, L.quieted hs hquiet hgrounded⟩, hpost⟩

theorem readsBuild (h : ∀ s, Rests w s → U.Held s → ∃ b : Build α, x s = exec (Exec.build b) s ∧
      Build.Ensures s.modes.rules b fun a => post a a) : U.alone.Reads w x x post := by
  refine L.reads fun s hrests hs => ?_
  obtain ⟨b, hx, r, hr, hpost, -⟩ := h s hrests hs
  obtain ⟨pool, hrun⟩ := run_build hr
  rw [hx, hrun]
  cases r with
  | ok a => exact ⟨⟨s.quiet_withPool pool, hs.grounded⟩, hpost a rfl⟩
  | error e => exact ⟨s.quiet_withPool pool, hs.grounded⟩

omit L in
theorem writes {post : Frame → α → α → Prop} (h : ∀ s, Rests w s → U.Held s → Yields
      (fun a s' => (U.Held s' ∧ s.Follows s') ∧ post s' a a) U.Failed (x s)) :
    U.alone.Writes w x x post := by
  rintro s t ⟨rfl, hrests, hs⟩
  refine (outcomes (h s hrests hs)).imp fun a b s' t' ha => ?_
  obtain ⟨rfl, rfl, ⟨hs', hfollows⟩, hpost⟩ := ha
  exact ⟨s', hrests.widens.trans hfollows.widens, ⟨rfl, ⟨rfl, rfl, rfl, rfl, rfl⟩, hs'⟩, hpost⟩

theorem words' : U.alone.Words where
  refl w := .refl _
  trans h₁ h₂ := h₁.trans h₂
  knows_mono hle hf := ⟨hf.1, hf.2.mono hle.scope⟩
  raise _ hf := hf
  width_eq hf := by rw [hf.1]
  width_range _ := False.elim
  constant {w} value width _ := by
    refine L.readsBuild fun s _ _ => ⟨_, rfl, ?_⟩
    refine (Build.Makes.constant w.scope True value False.elim).ensures.mono fun f hf => ?_
    exact ⟨⟨rfl, hf.1.weaken fun _ => trivial⟩, hf.2, hf.2 ▸ (hf.1.width_range trivial).1⟩
  call {w l c c'} hc := by
    obtain ⟨rfl, hproper⟩ := hc.diagonal
    refine L.readsBuild fun s _ _ => ⟨_, rfl, ?_⟩
    exact (Call.proper s.modes.rules hproper).mono fun f hf =>
      ⟨⟨rfl, hf.1⟩, hf.2, False.elim⟩
  cancel {w l f g} hf := by
    obtain ⟨rfl, hf⟩ := hf
    refine L.readsBuild fun s _ _ => ⟨_, rfl, ?_⟩
    exact (Call.proper s.modes.rules (.arith hf hf)).mono fun f hf => ⟨rfl, hf.1⟩
  failed h _ := ⟨h.1, L.failedOf h.2.2⟩

theorem reading : U.alone.Reading where
  toWords := L.words'
  code := by
    rintro w s t ⟨rfl, -, hs⟩
    exact ⟨hs.arch, hs.arch, rfl, rfl, rfl, rfl, hs.operands⟩
  operands h h' := by rw [h.2.1.instruction, h'.2.1.instruction]
  final h := ⟨h.1, L.finalOf h.2.2⟩
  source_range _ := False.elim
  source_register h := ⟨_, h⟩
  source_base h hreg := h.1 _ hreg
  source_index h hreg := h.2 _ hreg
  legible_register _ h := by cases h
  target_root := L.root
  evaluate h hf := by rw [h.1, hf.1]
  registerFormula {w reg} hreg _ := by
    refine L.readsBuild fun s hrests hs => ⟨_, rfl, ?_⟩
    refine (Grounded.registerFormula hs.grounded hreg s.machine
      s.modes.rules).ensures.mono fun f hf => ⟨rfl, ?_⟩
    exact hrests.scope ▸ hf.1
  load {w access} haccess := by
    refine L.reads fun s hrests hs => ?_
    have hbytes : U.words → U.bytes ∨ s.modes.isOn .memoryArray = true := hs.modes ▸ L.bytes
    refine (load_yields hs.grounded hbytes (haccess access rfl)).mono
      (fun f s' h => ⟨h.1, ⟨rfl, ?_⟩, False.elim⟩) fun _ he => he
    exact hrests.scope ▸ h.2

theorem unknownValue (hreg : U.alone.arch.Has reg) :
    U.alone.Writes w (unknownValue reg) (unknownValue reg) fun w =>
      U.alone.knows w true := by
  have hwidth : Formula.WordWidth reg.bits := Register.Known.wordWidth ⟨_, hreg⟩
  refine writes fun s _ hs => ?_
  obtain ⟨pool, hrun⟩ := run_unknownValue hwidth s
  have hwidens := s.context.widens_addVariable hwidth (some "undefined")
    (s.machine.register reg) pool
  rw [hrun]
  refine ⟨⟨⟨⟨hs.arch, hs.modes, hs.widens.trans hwidens, ?_⟩, hs.operands, L.fresh hs hwidens⟩,
    ⟨rfl, hwidens, .refl _, fun _ h => h⟩⟩, rfl, ?_, fun _ => rfl, fun _ => hwidth⟩
  · exact Grounded.mono hs.grounded hwidens.scope
  · exact .intro ⟨hwidth, s.context.addVariable_scope _ _ _⟩ trivial (by simp)

theorem arrive (hf : f.Proper w.scope U.words)
    (hwidth : f.width = U.alone.arch.programCounter.bits) (conditional : Bool) :
    U.alone.Ends w (arrive f conditional) (arrive f conditional) := by
  rintro s t ⟨rfl, hrests, hs⟩
  have hformed : f.Formed s.scope := hrests.scope ▸ hf.formed
  obtain ⟨r, hr, hpath, -⟩ := Engine.outcomes_formed hformed s.modes.rules
    s.instruction.address (s.evaluate f).toUInt64
  obtain ⟨pool, hrun⟩ := run_arrival conditional hr
  have hnext : true = true → s.Within (s.evaluate f).toUInt64 := by
    intro _ hbounded
    have hlt := hformed.eval_lt (hbounded.fits s.machine.byte)
    rw [hwidth, ← show s.arch = U.alone.arch from hs.arch, ← Formula.value_eq_eval] at hlt
    exact lt_of_le_of_lt (Nat.mod_le _ _) hlt
  have hyields : Yields (fun _ => U.Final) U.Failed (Step.arrive f conditional s) := by
    rw [hrun]
    by_cases hskip : (s.modes.isOn .pcTrackingSymbolic && !f.symbolic) = true
    · simp only [if_pos hskip]
      exact (L.steers hs _ _ _ s.pool hnext hs.grounded.path).1
    · simp only [if_neg hskip]
      cases r with
      | error e => exact (L.steers hs _ _ _ pool hnext hs.grounded.path).2
      | ok bs =>
        refine (L.steers hs _ _ _ pool hnext fun p hp => ?_).1
        rcases Array.mem_push.1 hp with hp | rfl
        · exact hs.grounded.path p hp
        · exact hpath bs rfl
  exact (outcomes hyields).imp fun a b s' t' h => ⟨⟨h.2.1, h.2.2⟩, h.1⟩

end Base

namespace Steps

variable (L : U.Steps)

include L

/-- What a run does to a frame of a world, with formulas that are proper there. -/
theorem diagonal : U.alone.Diagonal where
  toReading := L.reading
  same h := h.1
  equal h := h.1
  lower h := h
  level _ _ := rfl
  taint := Iff.rfl
  legible h _ _ := h
  slot address bits _ := by
    refine ⟨fun reg hreg => ?_, nofun⟩
    exact Option.some.inj hreg ▸ ⟨_, U.alone.arch.stackPointer_has⟩
  set {w l dst f} comment b hdst hf := by
    refine Base.writes fun s hrests hs => ?_
    exact (L.set comment b hs hdst (hrests.scope ▸ hf.2)).mono (fun _ _ h => ⟨h, rfl⟩)
      fun _ he => he
  keep {w l dst f} comment hdst hwhole hf := by
    refine Base.writes fun s hrests hs => ?_
    exact (L.keep comment hs hdst (hwhole.imp id hrests.even.2) (hrests.scope ▸ hf.2)).mono
      (fun _ _ h => ⟨h, rfl⟩) fun _ he => he
  exchange {w l m dst src f g} comment b c hdst hsrc hf hg := by
    refine Base.writes fun s hrests hs => ?_
    exact (L.exchange comment b c hs hdst hsrc (hrests.scope ▸ hf.2) (hrests.scope ▸ hg.2)).mono
      (fun _ _ h => ⟨h, trivial⟩) fun _ he => he
  volatile {w l f} comment b hf := by
    refine Base.writes fun s hrests hs => ?_
    exact (L.volatile comment b hs (hrests.scope ▸ hf.2)).mono (fun _ _ h => ⟨h, trivial⟩)
      fun _ he => he
  unknownValue := L.unknownValue
  advanceTo next := by
    rintro s t ⟨rfl, -, hs⟩
    exact ⟨⟨rfl, (L.steers hs _ _ _ s.pool Bool.noConfusion hs.grounded.path).1⟩, rfl⟩
  arrive conditional hf hwidth := L.arrive hf.2 hwidth conditional

/-! Every instruction. -/

theorem opens (htarget : ∀ {op}, op.Known → U.target op) (huneven : U.uneven) (opcode : Nat) :
    U.alone.Opens w opcode := L.diagonal.opens htarget (fun _ => .inl huneven) opcode

theorem action (hs : U.Held s) (hopens : U.alone.Opens s opcode)
    (hact : s.arch.semantics? opcode = some act) :
    Yields (fun _ => U.Final) U.Failed (act s) := by
  rw [hs.arch] at hact
  have hend := L.diagonal.action False.elim hopens hact s s ⟨rfl, ⟨rfl, rfl, rfl, rfl, rfl⟩, hs⟩
  exact (yields hend).mono (fun _ _ h => h.1.2) fun _ he => he.2

variable (hresolve : ∀ {s operands}, U.Held s →
  U.holds { s with instruction.operands := operands })

include hresolve

theorem resolveOperand (hs : U.Held s) (i : Nat) :
    Yields (fun _ s' => U.Held s' ∧ ∃ operands,
      Rests { s with instruction.operands := operands } s') U.Failed (resolveOperand i s) := by
  have hread : U.alone.Reads s (operand i >>= computedAddress)
      (operand i >>= computedAddress) fun a b => a.isSome = b.isSome := by
    refine (L.reading.operand i).bind fun op op' hop => ?_
    obtain rfl := hop.eq
    exact L.diagonal.laws.computedAddress hop.source
  have hyields := yields (hread s s ⟨rfl, ⟨rfl, rfl, rfl, rfl, rfl⟩, hs⟩)
  rw [run_resolveOperand]
  cases hrun : (operand i >>= computedAddress) s with
  | error e s' =>
    rw [hrun] at hyields
    exact hyields.2
  | ok a s' =>
    rw [hrun] at hyields
    obtain ⟨-, hrests, hs'⟩ := hyields.1
    cases a with
    | none => exact ⟨hs', s.instruction.operands, hrests⟩
    | some address =>
      refine ⟨⟨⟨hs'.arch, hs'.modes, hs'.widens, hs'.grounded⟩, ?_, hresolve hs'⟩,
        s'.instruction.operands.modify i (Operand.placed address), ?_, hrests.vars,
        hrests.machine, hrests.taint, hrests.modes⟩
      swap
      · rw [← hrests.instruction]
        rfl
      refine Operand.forall_mem_modify hs'.operands (fun op hop => ?_) i
      cases op with
      | memory access => exact hop
      | register reg => exact hop
      | immediate imm => exact hop

/-- The operands of an instruction are resolved, and all else rests. -/
theorem resolveOperands (hs : U.Held s) :
    Yields (fun _ s' => U.Held s' ∧ ∃ operands,
      Rests { s with instruction.operands := operands } s') U.Failed (resolveOperands s) := by
  have hlist : ∀ (l : List Nat) {s : Frame}, U.Held s →
      Yields (fun _ s' => U.Held s' ∧ ∃ operands,
        Rests { s with instruction.operands := operands } s') U.Failed
        (l.forM Step.resolveOperand s) := by
    intro l
    induction l with
    | nil => exact fun {s} hs => ⟨hs, s.instruction.operands, rfl, rfl, rfl, rfl, rfl⟩
    | cons i l ih =>
      refine fun hs => (L.resolveOperand hresolve hs i).bind fun _ s' hs' => ?_
      obtain ⟨hheld, operands, hrests⟩ := hs'
      refine (ih hheld).mono (fun _ _ h => ?_) fun _ he => he
      obtain ⟨hheld', operands', hrests'⟩ := h
      refine ⟨hheld', operands', hrests'.instruction.trans ?_, hrests'.vars.trans hrests.vars,
        hrests'.machine.trans hrests.machine, hrests'.taint.trans hrests.taint,
        hrests'.modes.trans hrests.modes⟩
      rw [hrests.instruction]
  exact hlist (List.range s.instruction.operands.length) hs

/-- What the parts of an instruction keep up, its execution does, however it ends. -/
theorem execute (hs : U.Held s) (hopens : ∀ s₁, Step.resolveOperands s = .ok () s₁ →
      U.alone.Opens s₁ s.instruction.opcode) :
    Yields (fun _ => U.Final) U.Failed (execute s) := by
  rw [run_execute]
  cases hact : s.arch.semantics? s.instruction.opcode with
  | none => exact L.finalOf hs
  | some act =>
    have hresolved := L.resolveOperands hresolve hs
    show Yields _ _ ((Step.resolveOperands >>= fun _ => act) s)
    rw [run_bind]
    cases hrun : Step.resolveOperands s with
    | error e s' =>
      rw [hrun] at hresolved
      exact hresolved
    | ok _ s' =>
      rw [hrun] at hresolved
      rw [hs.arch, ← hresolved.1.arch] at hact
      exact L.action hresolved.1 (hopens s' hrun) hact

end Steps

end

end Upkeep

/-- The upkeep of nothing beyond what every upkeep asks. -/
def Frame.bare (s₀ : Frame) : Upkeep where
  start := s₀
  words := False
  bytes := False
  holds _ := True
  final _ := True
  failed _ := True

theorem Frame.bare_laws (s₀ : Frame) : s₀.bare.Laws where
  words := id
  bytes := False.elim
  final _ := trivial
  failed _ := trivial
  quiet _ _ := trivial
  fresh _ _ := trivial
  record _ _ _ := trivial
  retaint _ _ _ _ := trivial
  stamp _ _ := trivial
  steer _ _ _ _ _ _ _ := ⟨trivial, trivial⟩
  torn _ _ _ _ := trivial

/-! What an operation leaves of its instruction. -/

/-- What an instruction is, apart from its results. -/
def Instruction.code (inst : Instruction) : Address × Nat × List Operand :=
  (inst.address, inst.length, inst.operands)

/-- An operation keeps up the instruction that it is executed for. -/
def Frame.codeKept (s₀ : Frame) : Upkeep where
  start := s₀
  words := False
  bytes := False
  holds s := s.instruction.code = s₀.instruction.code
  final s := s.instruction.code = s₀.instruction.code
  failed s := s.instruction.code = s₀.instruction.code

theorem Frame.codeKept_laws (s₀ : Frame) : s₀.codeKept.Laws where
  words := id
  bytes := False.elim
  final h := h.holds
  failed h := h.holds
  quiet h hs := by
    obtain ⟨pool, array, rfl⟩ := hs
    exact h.holds
  fresh h _ := h.holds
  record h _ hs := (congrArg Instruction.code hs.instruction).trans h.holds
  retaint _ h _ _ := h.holds
  stamp h _ := h.holds
  steer _ _ _ _ _ h _ := ⟨h.holds, h.holds⟩
  torn h _ _ _ := h.holds

theorem Step.code_action (hgrounded : s.Grounded False False)
    (hoperands : ∀ op ∈ s.instruction.operands, op.Known)
    (hact : s.arch.semantics? opcode = some act) :
    (after (act s)).instruction.code = s.instruction.code := by
  have hyields : Yields (fun _ => s.codeKept.Final) s.codeKept.Failed (act s) :=
    s.codeKept_laws.steps.action ⟨⟨rfl, rfl, .refl _, hgrounded⟩, hoperands, rfl⟩
      (s.codeKept_laws.steps.opens id trivial opcode) hact
  revert hyields
  cases act s with
  | ok fault s' => exact fun h => h.final
  | error e s' => exact fun h => h.failed

end Concolic
