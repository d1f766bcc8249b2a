import Concolic.Proofs.Lockstep.Record
import Concolic.Proofs.Lockstep.Step
import Concolic.Proofs.Unbinding

/-
  One run of a whole instruction.

  What the resolution of the operands changes, which operation an opcode stands
  for, and what is left of the instruction after its execution, when the modes have
  dropped what they do not keep.
-/

namespace Concolic

open Step Architecture Expression Operand Symbolic Engine

variable {s s' : Frame} {α β τ : Type} {arch : Architecture} {view : Frame → τ}
  {action : Step (Option Fault)}

/-! The operands. -/

namespace Operand

def placed (address : Address) : Operand → Operand
  | .memory access => .memory { access with address }
  | op => op

/-- The operand without its address. -/
def unplaced : Operand → Operand := placed 0

theorem map_unplaced_modify (address : Address) (i : Nat) (operands : List Operand) :
    (operands.modify i (placed address)).map unplaced = operands.map unplaced := by
  have hplaced : ∀ op, unplaced (placed address op) = unplaced op := by
    intro op
    cases op <;> rfl
  apply List.ext_getElem?
  intro j
  rw [List.getElem?_map, List.getElem?_map, List.getElem?_modify]
  cases operands[j]? with
  | none => rfl
  | some op => by_cases h : i = j <;> simp [h, hplaced]

end Operand

namespace Instruction

variable {P : Operand → Prop} {x y : Operand} {address : Address} {length opcode : Nat}
  {text : String}

theorem decoded_one (hx : P x) :
    ∀ op ∈ (decoded address length opcode [x] text).operands, P op := by
  simpa [decoded, maxOperands] using hx

theorem decoded_two (hx : P x) (hy : P y) :
    ∀ op ∈ (decoded address length opcode [x, y] text).operands, P op := by
  simpa [decoded, maxOperands] using ⟨hx, hy⟩

end Instruction

namespace Step

/-- Every run of the part, failed or not, leads to a related frame. -/
def Leads {α : Type} (R : Frame → Frame → Prop) (x : Step α) : Prop := ∀ s, R s (after (x s))

theorem Leads.bind {R : Frame → Frame → Prop} {x : Step α} {k : α → Step β}
    (htrans : ∀ {a b c}, R a b → R b c → R a c) (hx : Leads R x) (hk : ∀ a, Leads R (k a)) :
    Leads R (x >>= k) := by
  intro s
  rw [run_bind]
  have hs := hx s
  cases hxs : x s with
  | ok a s' =>
    rw [hxs] at hs
    exact htrans hs (hk a s')
  | error e s' =>
    rw [hxs] at hs
    exact hs

theorem retains_operand (i : Nat) : Retains view (operand i) := by
  refine Retains.look fun op => ?_
  split
  · exact .pure _
  · exact fun _ => rfl

theorem retains_computedAddress (hview : Frame.Coarse view) (op : Operand) :
    Retains view (computedAddress op) := by
  unfold computedAddress
  split
  · refine .ite (.ite ?_ ?_) (.pure none)
    · exact Retains.look fun inst => fun _ => rfl
    · exact (retains_effectiveAddress hview _).bind fun f =>
        Retains.look fun v => .pure _
  · exact .pure none

theorem run_resolveOperand (i : Nat) (s : Frame) :
    resolveOperand i s =
      match (operand i >>= computedAddress) s with
      | .ok (some address) s => setAddress i address s
      | .ok none s => .ok () s
      | .error e s => .error e s := by
  unfold resolveOperand
  rw [run_bind, run_bind]
  cases operand i s with
  | error e s => rfl
  | ok op s =>
    simp only [run_bind]
    cases computedAddress op s with
    | error e s => rfl
    | ok a s => cases a <;> rfl

/-- The resolution of an operand sets its address, or leaves the operands as they are. -/
theorem operands_resolveOperand_cases (i : Nat) (s : Frame) :
    (after (resolveOperand i s)).instruction.operands = s.instruction.operands ∨
      ∃ address, (after (resolveOperand i s)).instruction.operands =
        s.instruction.operands.modify i (placed address) := by
  have hs : Retains Frame.instruction (operand i >>= computedAddress) :=
    (retains_operand i).bind (retains_computedAddress fun _ h => h)
  replace hs := hs s
  rw [run_resolveOperand]
  cases hcomputed : (operand i >>= computedAddress) s with
  | error e s' =>
    rw [hcomputed] at hs
    exact .inl (congrArg Instruction.operands hs)
  | ok a s' =>
    rw [hcomputed] at hs
    rw [← show s'.instruction = s.instruction from hs]
    cases a with
    | none => exact .inl rfl
    | some address => exact .inr ⟨address, rfl⟩

/-- The resolution of the operands leaves all of the engine but its formulas. -/
theorem retains_resolveOperands : Retains (fun s => s.engine.solid) resolveOperands := by
  refine .look fun _ => .forM fun i _ => (retains_operand i).bind fun op => ?_
  refine (retains_computedAddress (fun hsolid _ => hsolid) op).bind fun address => ?_
  cases address with
  | none => exact .pure _
  | some address => exact fun _ => rfl

/-- The addresses of some operands are set, and no other operand changes. -/
theorem operands_resolve {i : Nat} {l : List Nat} (hi : i ∉ l) :
    Retains (fun s => s.instruction.operands[i]?) (l.forM resolveOperand) := by
  refine .forM fun j hj => retains_iff.2 fun s => ?_
  have hne : j ≠ i := fun h => hi (h ▸ hj)
  rcases operands_resolveOperand_cases j s with h | ⟨address, h⟩
  · simp only [h]
  · simp only [h, List.getElem?_modify_ne _ _ hne]

/-- But for their addresses, the operands stay as they are. -/
theorem unplaced_resolve (l : List Nat) :
    Retains (fun s => s.instruction.operands.map unplaced) (l.forM resolveOperand) := by
  refine .forM fun i _ => retains_iff.2 fun s => ?_
  rcases operands_resolveOperand_cases i s with h | ⟨address, h⟩
  · simp only [h]
  · simp only [h]
    exact map_unplaced_modify address i _

end Step

/-- The frame once the addresses of its operands are computed. -/
def Frame.resolved (s : Frame) : Frame := after (resolveOperands s)

theorem Frame.unplaced_resolved (s : Frame) :
    s.resolved.instruction.operands.map unplaced = s.instruction.operands.map unplaced :=
  retains_iff.1 (unplaced_resolve _) s

/-! The operation. -/

/-- The operation of an opcode in a table of mnemonics. -/
def Architecture.operationAt? {Op : Type} (table : List (String × Option Op)) (opcode : Nat) :
    Option Op :=
  if opcode < firstOpcode then none else (table[opcode - firstOpcode]?).bind Prod.snd

def X86.operation? (opcode : Nat) : Option Op := operationAt? mnemonics opcode

def AArch64.operation? (opcode : Nat) : Option Op := operationAt? mnemonics opcode

theorem semantics?_eq {Op : Type} {table : List (String × Option Op)}
    {execute : Op → Step (Option Fault)}
    (htable : arch.opcodes = table.map fun p => (p.1, p.2.map execute)) (opcode : Nat) :
    arch.semantics? opcode = (operationAt? table opcode).map execute := by
  unfold semantics? operationAt?
  rw [htable, List.getElem?_map]
  split
  · rfl
  · cases table[opcode - firstOpcode]? <;> rfl

theorem semantics?_x86 (h : arch.isX86 = true) (opcode : Nat) :
    arch.semantics? opcode = (X86.operation? opcode).map X86.Op.execute := by
  refine semantics?_eq ?_ opcode
  cases arch with
  | x86 => rfl
  | x86_64 => rfl
  | aarch64 => cases h

theorem semantics?_aarch64 (opcode : Nat) : aarch64.semantics? opcode =
    (AArch64.operation? opcode).map AArch64.Op.execute := semantics?_eq rfl opcode

theorem semantics?_cases {opcode : Nat} (h : arch.semantics? opcode = some action) :
    (∃ op, arch.isX86 = true ∧ X86.operation? opcode = some op ∧ op.execute = action) ∨
      ∃ op, arch = .aarch64 ∧ AArch64.operation? opcode = some op ∧ op.execute = action := by
  cases arch with
  | aarch64 =>
    rw [semantics?_aarch64] at h
    obtain ⟨op, hop, hact⟩ := Option.map_eq_some_iff.1 h
    exact .inr ⟨op, rfl, hop, hact⟩
  | x86 | x86_64 =>
    rw [semantics?_x86 rfl] at h
    obtain ⟨op, hop, hact⟩ := Option.map_eq_some_iff.1 h
    exact .inl ⟨op, rfl, hop, hact⟩

namespace Step

theorem run_execute (s : Frame) : execute s =
    match s.arch.semantics? s.instruction.opcode with
    | none => .ok (some .invalidOpcode) s
    | some action => (resolveOperands >>= fun _ => action) s := by
  have hrun : execute s = (match s.arch.semantics? s.instruction.opcode with
    | none => pure (some .invalidOpcode)
    | some action => resolveOperands >>= fun _ => action : Step (Option Fault)) s := rfl
  rw [hrun]
  cases s.arch.semantics? s.instruction.opcode <;> rfl

end Step

/-! What is kept of an instruction. -/

/-- The frame in which an instruction is executed. -/
def Frame.start (s : Frame) : Frame := { s with instruction := s.instruction.reset }

def Frame.Lists (s : Frame) (x : Expression) : Prop :=
  x.id ∈ s.instruction.expressions ∧ s.symbolic.expressions[x.id]? = some x

/-- An expression that the instruction lists is tainted. -/
def Frame.someTainted (s : Frame) : Bool :=
  s.instruction.expressions.toList.any fun id =>
    s.symbolic.expressions[id]?.any Expression.tainted

/-- What is left of a frame when the modes have dropped what they do not keep. -/
structure Frame.Settles (s s' : Frame) : Prop where
  engine : s'.engine = { s.engine with symbolic := s'.symbolic }
  symbolic : s.symbolic.Frees
    (fun x => s.Lists x ∧ Step.keeps s.modes x = false) s'.symbolic
  list : s'.instruction.expressions.toList = s.instruction.expressions.toList.filter fun id =>
    s.symbolic.expressions[id]?.any (Step.keeps s.modes)
  tainted : s'.instruction.tainted = s'.someTainted
  branch : s'.instruction.branch = s.instruction.branch
  taken : s'.instruction.taken = s.instruction.taken
  next : s'.instruction.next = s.instruction.next

theorem Frame.Settles.weakens (h : s.Settles s') : s.engine.Weakens s'.engine := by
  rw [h.engine]
  exact h.symbolic.toFewer.weakens

namespace Step

/-- The expressions of an instruction can be looked up if they are listed. -/
theorem run_expressions (s : Frame) :
    ∃ r : Except Error (List Expression),
      (s.Listed → ∃ xs, r = .ok xs ∧ xs.map Expression.id = s.instruction.expressions.toList ∧
        ∀ x ∈ xs, s.symbolic.expressions[x.id]? = some x) ∧
      expressions s = match r with
        | .ok xs => .ok xs s
        | .error e => .error e s := by
  have hlist : ∀ l : List Nat,
      (l.mapM fun id => (ofExcept (s.symbolic.expression id) : Step Expression)) s =
      match l.mapM s.symbolic.expression with
      | .ok xs => .ok xs s
      | .error e => .error e s := by
    intro l
    induction l with
    | nil => rfl
    | cons id l ih =>
      rw [List.mapM_cons, List.mapM_cons, run_bind]
      cases s.symbolic.expression id with
      | error e => rfl
      | ok x =>
        show (_ >>= fun xs => pure (x :: xs) : Step (List Expression)) s = _
        rw [run_bind, ih]
        cases l.mapM s.symbolic.expression <;> rfl
  refine ⟨s.instruction.expressions.toList.mapM s.symbolic.expression, fun h => ?_,
    hlist s.instruction.expressions.toList⟩
  have hmem : ∀ id ∈ s.instruction.expressions.toList,
      s.symbolic.expressions[id]?.map Expression.id = some id :=
    fun id hid => h id (Array.mem_def.2 hid)
  revert hmem
  generalize s.instruction.expressions.toList = l
  intro hmem
  induction l with
  | nil => exact ⟨[], rfl, rfl, by simp⟩
  | cons id l ih =>
    obtain ⟨xs, hxs, hids, hfound⟩ := ih fun j hj => hmem j (by simp [hj])
    obtain ⟨x, hx, hid⟩ := Option.map_eq_some_iff.1 (hmem id (by simp))
    refine ⟨x :: xs, ?_, by simp [hid, hids], List.forall_mem_cons.2 ⟨hid ▸ hx, hfound⟩⟩
    simp only [List.mapM_cons, expression, hx] at hxs ⊢
    rw [hxs]
    rfl

/-- The part does no more to the engine than to take bindings away. -/
def Weakening {α : Type} (x : Step α) : Prop := Leads (fun s s' => s.engine.Weakens s'.engine) x

theorem Weakening.bind {α β : Type} {x : Step α} {k : α → Step β} (hx : Weakening x)
    (hk : ∀ a, Weakening (k a)) : Weakening (x >>= k) :=
  Leads.bind (fun h₁ h₂ => h₁.trans h₂) hx hk

theorem weakening_expressions : Weakening expressions := by
  intro s
  obtain ⟨r, -, hrun⟩ := run_expressions s
  rw [hrun]
  cases r <;> exact .refl _

theorem weakening_drop (x : Expression) : Weakening (drop x) := by
  intro s
  have hrun : drop x s = exec (modifySymbolic fun symbolic => symbolic.unbind x.id) s := rfl
  rw [hrun, run_modifySymbolic]
  cases h : s.symbolic.unbind x.id with
  | error e => exact .refl _
  | ok symbolic => exact (fewer_unbind h).weakens

theorem weakening_forM {f : α → Step PUnit} (hf : ∀ a, Weakening (f a)) :
    ∀ l : List α, Weakening (l.forM f)
  | [] => fun s => .refl s.engine
  | a :: l => (hf a).bind fun _ => weakening_forM hf l

theorem weakening_modify {f : Frame → Frame} (hf : ∀ s, (f s).engine = s.engine) :
    Weakening (modify f : Step PUnit) := by
  intro s
  show s.engine.Weakens (f s).engine
  rw [hf]
  exact .refl _

theorem weakening_prune : Weakening prune := by
  have hget : Weakening (get : Step Frame) := fun s => .refl s.engine
  refine hget.bind fun frame => weakening_expressions.bind fun xs => ?_
  refine (weakening_forM weakening_drop _).bind fun _ => ?_
  exact weakening_modify fun _ => rfl

/-- Where the modes keep every expression, pruning does nothing. -/
theorem prune_eq (hlisted : s.Listed) (hkeeps : ∀ x, keeps s.modes x = true) :
    prune s = .ok () s := by
  obtain ⟨r, hr, hrun⟩ := run_expressions s
  obtain ⟨xs, rfl, hids, -⟩ := hr hlisted
  have hprune : prune s = (expressions >>= fun xs =>
      (xs.filter fun x => !keeps s.modes x).forM drop >>= fun _ =>
        list (xs.filter (keeps s.modes))) s := rfl
  have hdropped : (xs.filter fun x => !keeps s.modes x) = [] :=
    List.filter_eq_nil_iff.2 fun x _ => by simp [hkeeps x]
  have hkept : xs.filter (keeps s.modes) = xs := List.filter_eq_self.2 fun x _ => hkeeps x
  rw [hprune, run_bind, hrun]
  simp only [hdropped, hkept]
  show EStateM.Result.ok () { s with instruction := { s.instruction with
    expressions := (xs.map Expression.id).toArray } } = _
  rw [hids]

/-- What follows the execution of an instruction. -/
def settle (fault : Option Fault) : Step (Option Fault) := do
  modify fun frame => { frame with instruction.fault := fault }
  prune
  let tainted := (← expressions).any Expression.tainted
  modify fun frame => { frame with instruction.tainted := tainted }
  return fault

theorem run_settled (fault : Option Fault) (s : Frame) :
    settle fault s = (prune >>= fun _ => expressions >>= fun xs => do
      modify fun frame => { frame with instruction.tainted := xs.any tainted }
      return fault) { s with instruction := { s.instruction with fault } } := rfl

theorem run_process (s : Frame) : process s = (execute >>= settle) s.start := rfl

/-- The result of an instruction is that of its execution. -/
theorem settle_eq_ok {fault a : Option Fault} (h : settle fault s = .ok a s') : a = fault := by
  rw [run_settled, run_bind] at h
  split at h
  · next s₁ _ =>
    rw [run_bind] at h
    split at h
    · cases h
      rfl
    · cases h
  · cases h

/-- An instruction that is processed is resolved, executed and settled. -/
theorem process_eq_ok {fault : Option Fault}
    (hact : s.arch.semantics? s.instruction.opcode = some action)
    (hrun : process s = .ok fault s') :
    ∃ s₁ s₂, resolveOperands s.start = .ok () s₁ ∧ action s₁ = .ok fault s₂ ∧
      settle fault s₂ = .ok fault s' := by
  have hopcode : s.start.arch.semantics? s.start.instruction.opcode = some action := hact
  rw [run_process, run_bind, run_execute, hopcode] at hrun
  simp only [run_bind] at hrun
  cases hresolve : resolveOperands s.start with
  | error e s₁ => rw [hresolve] at hrun; cases hrun
  | ok _ s₁ =>
    simp only [hresolve] at hrun
    cases haction : action s₁ with
    | error e s₂ => rw [haction] at hrun; cases hrun
    | ok fault' s₂ =>
      simp only [haction] at hrun
      obtain rfl := settle_eq_ok hrun
      exact ⟨s₁, s₂, rfl, haction, hrun⟩

/-- What follows the execution changes the symbolic state, and in the instruction the list
of its expressions, its taint and its fault. -/
theorem retains_settle (hview : ∀ (s : Frame) symbolic expressions tainted fault, view {
      engine := { s.engine with symbolic },
      instruction := { s.instruction with expressions, tainted, fault } } = view s)
    (fault : Option Fault) : Retains view (settle fault) := by
  have hlook : Retains view expressions := by
    intro s
    obtain ⟨r, -, hrun⟩ := run_expressions s
    rw [hrun]
    cases r <;> rfl
  have hdrop (x : Expression) : Retains view (drop x) := by
    intro s
    have hrun : drop x s = exec (modifySymbolic fun symbolic => symbolic.unbind x.id) s := rfl
    rw [hrun, run_modifySymbolic]
    cases s.symbolic.unbind x.id with
    | error e => rfl
    | ok symbolic => exact hview s symbolic _ _ _
  have hprune : Retains view prune := by
    refine .look fun s => hlook.bind fun xs => (Retains.forM fun x _ => hdrop x).bind fun _ s => ?_
    exact hview s _ _ _ _
  refine Retains.bind (fun s => hview s _ _ _ _) fun _ => hprune.bind fun _ => ?_
  refine hlook.bind fun xs => Retains.bind (fun s => hview s _ _ _ _) fun _ => .pure _

theorem weakening_settle (fault : Option Fault) : Weakening (settle fault) := by
  refine Weakening.bind (weakening_modify ?_) fun _ => weakening_prune.bind fun _ => ?_
  · exact fun _ => rfl
  refine weakening_expressions.bind fun xs => Weakening.bind (weakening_modify ?_) fun _ => ?_
  · exact fun _ => rfl
  · exact fun s => .refl s.engine

/-- After its execution an instruction may lose bindings, and no more. -/
theorem weakens_process (s : Frame) :
    (after (execute s.start)).engine.Weakens (after (process s)).engine := by
  rw [run_process, run_bind]
  cases execute s.start with
  | error e s' => exact .refl _
  | ok fault s' => exact weakening_settle fault s'

theorem run_drops : ∀ (xs : List Expression) (s : Frame),
    (∀ x ∈ xs, s.symbolic.expressions[x.id]? = some x) →
    ∃ symbolic, xs.forM drop s = .ok () { s with symbolic := symbolic } ∧
      s.symbolic.Frees (· ∈ xs) symbolic
  | [], s, _ => ⟨s.symbolic, rfl, by simpa using Frees.none s.symbolic⟩
  | x :: xs, s, h => by
    obtain ⟨hx, hxs⟩ := List.forall_mem_cons.1 h
    obtain ⟨symbolic, hunbind, hfrees⟩ := unbind_frees hx rfl
    have hdrop : drop x s = .ok () { s with symbolic := symbolic } := by
      have hrun : drop x s = exec (modifySymbolic fun symbolic => symbolic.unbind x.id) s := rfl
      rw [hrun, run_modifySymbolic, hunbind]
    obtain ⟨last, hrest, hfrees'⟩ := run_drops xs { s with symbolic := symbolic }
      fun y hy => by rw [hfrees.expressions]; exact hxs y hy
    refine ⟨last, ?_, by simpa using hfrees.trans hfrees'⟩
    have hforM : (x :: xs).forM drop s = (drop x >>= fun _ => xs.forM drop) s := rfl
    rw [hforM, run_bind, hdrop]
    exact hrest

/-- What is found under listed numbers is so of the list of their expressions. -/
theorem filter_listed {s : Symbolic} {xs : List Expression}
    (h : ∀ x ∈ xs, s.expressions[x.id]? = some x) (p : Expression → Bool) :
    (xs.filter p).map Expression.id =
        (xs.map Expression.id).filter (fun id => s.expressions[id]?.any p) ∧
      xs.any p = (xs.map Expression.id).any fun id => s.expressions[id]?.any p := by
  have hsame : ∀ x ∈ xs, p x = s.expressions[x.id]?.any p := fun x hx => by rw [h x hx]; rfl
  rw [List.filter_map, List.any_map]
  refine ⟨congrArg _ (List.filter_congr hsame), Bool.eq_iff_iff.2 ?_⟩
  simp only [List.any_eq_true]
  exact exists_congr fun x => and_congr_right fun hx => by rw [hsame x hx]; rfl

theorem run_prune (hlisted : s.Listed) :
    ∃ s', prune s = .ok () s' ∧ s'.Listed ∧
      ∀ b, b = s'.someTainted → s.Settles { s' with instruction.tainted := b } := by
  obtain ⟨r, hr, hrun⟩ := run_expressions s
  obtain ⟨xs, rfl, hids, hfound⟩ := hr hlisted
  obtain ⟨symbolic, hdrops, hfrees⟩ := run_drops (xs.filter fun x => !keeps s.modes x) s
    fun x hx => hfound x (List.mem_filter.1 hx).1
  have hprune : prune s = (expressions >>= fun xs =>
      (xs.filter fun x => !keeps s.modes x).forM drop >>= fun _ =>
        list (xs.filter (keeps s.modes))) s := rfl
  refine ⟨{ s with
    engine.symbolic := symbolic,
    instruction.expressions := ((xs.filter (keeps s.modes)).map Expression.id).toArray },
    ?_, ?_, fun _ htainted => ⟨rfl, ?_, ?_, htainted, rfl, rfl, rfl⟩⟩
  · rw [hprune, run_bind, hrun]
    simp only [run_bind, hdrops]
    rfl
  · intro id hid
    obtain ⟨x, hx, rfl⟩ := List.mem_map.1 (List.mem_toArray.1 hid)
    rw [hfrees.expressions, hfound x (List.mem_filter.1 hx).1]
    rfl
  · have hdropped : (· ∈ xs.filter fun x => !keeps s.modes x) =
        fun x => s.Lists x ∧ keeps s.modes x = false := by
      funext x
      simp only [List.mem_filter, Bool.not_eq_true', eq_iff_iff, and_congr_left_iff]
      intro _
      rw [Frame.Lists, Array.mem_def, ← hids, List.mem_map]
      constructor
      · exact fun hx => ⟨⟨x, hx, rfl⟩, hfound x hx⟩
      · rintro ⟨⟨y, hy, hyx⟩, hx⟩
        rw [← hyx, hfound y hy] at hx
        exact Option.some.inj hx ▸ hy
    rw [← hdropped]
    exact hfrees
  · rw [← hids]
    exact (filter_listed hfound _).1

theorem run_settle (hlisted : s.Listed) (fault : Option Fault) :
    ∃ s', settle fault s = .ok fault s' ∧ s.Settles s' := by
  obtain ⟨s₁, hprune, hlisted₁, hsettles⟩ :=
    run_prune (s := { s with instruction := { s.instruction with fault } }) hlisted
  obtain ⟨r, hr, hrun⟩ := run_expressions s₁
  obtain ⟨xs, rfl, hids, hfound⟩ := hr hlisted₁
  have htainted : xs.any tainted = s₁.someTainted := by
    rw [(filter_listed hfound _).2, hids]
    rfl
  refine ⟨{ s₁ with instruction.tainted := xs.any tainted }, ?_, { hsettles _ htainted with }⟩
  simp only [run_settled, run_bind, hprune, hrun]
  rfl

/-- Where the modes keep every expression, an instruction that is executed is marked as
faulty or tainted, and no more. -/
theorem settle_eq (hlisted : s.Listed) (hkeeps : ∀ x, keeps s.modes x = true)
    (fault : Option Fault) :
    ∃ tainted, settle fault s =
      .ok fault { s with instruction := { s.instruction with fault, tainted } } := by
  have hlisted' : Frame.Listed { s with instruction := { s.instruction with fault } } := hlisted
  obtain ⟨r, hr, hrun⟩ := run_expressions { s with instruction := { s.instruction with fault } }
  obtain ⟨xs, rfl, -⟩ := hr hlisted'
  refine ⟨xs.any tainted, ?_⟩
  simp only [run_settled, run_bind, prune_eq hlisted' hkeeps, hrun]
  rfl

/-- Where the modes keep every expression, the execution of an instruction is all
of its processing. -/
theorem process_eq (hlisted : (after (execute s.start)).Listed)
    (hkeeps : ∀ x, keeps (after (execute s.start)).modes x = true) :
    answer (process s) = answer (execute s.start) ∧
      (after (process s)).engine = (after (execute s.start)).engine := by
  rw [run_process, run_bind]
  revert hlisted hkeeps
  cases execute s.start with
  | error e s' => exact fun _ _ => ⟨rfl, rfl⟩
  | ok fault s' =>
    intro hlisted hkeeps
    obtain ⟨tainted, hrun⟩ := settle_eq (s := s') hlisted hkeeps fault
    show answer (settle fault s') = _ ∧ (after (settle fault s')).engine = _
    rw [hrun]
    exact ⟨rfl, rfl⟩

end Step

end Concolic
