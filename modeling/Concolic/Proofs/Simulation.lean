import Concolic.Process
import Concolic.Proofs.Correspondence
import Concolic.Proofs.Registers

/-
  Two runs of the processing of an instruction, side by side.

  A simulation relates two frames by a world, which says what is known of them.
  Formulas of the two runs correspond (`knows`) at a level: at the level `false`
  they have one value in both runs, and at `true` they may have two. The level of
  an operand says which of the two is known when it is read, and the taint that
  the runs give to what they write may have to cover its level (`taint`). What is
  known in a world stays known in the later ones (`le`). Four judgements compare a
  part of the processing with itself:

  * `Reads w x y post`: it answers, or fails alike, and stays in the world `w`;
  * `Writes w x y post`: it may go on to a later world;
  * `Ends w x y`: it completes the instruction, and leads to frames related by
    `final`;
  * `Meets w x y`: it does so where the two runs give one result, which a decision
    by values may prevent.

  The laws of a simulation (`Words`, `Laws`, `Covers`) are about the primitive
  parts. From these every part of every instruction follows, bind by bind, so that
  what is to be shown about two runs is shown for the primitives only.
-/

namespace Concolic

open Step Exec Build

/-! What an instruction may refer to. -/

/-- The registers of an access are the architecture's, and if `sized` then it has
a size that a whole write can be displaced by. -/
structure Access.Suits (arch : Architecture) (sized : Prop) (access : Access) : Prop where
  base : ∀ reg, access.base = some reg → arch.Has reg
  index : ∀ reg, access.index = some reg → arch.Has reg
  size : sized → access.bits % 8 = 0 → access.bytes ∈ Symbolic.alignedSizes

def Operand.Suits (arch : Architecture) (sized : Prop) : Operand → Prop
  | .immediate _ => True
  | .register reg => arch.Has reg
  | .memory access => access.Suits arch sized

/-- What holds of all operands does so after one of them is changed. -/
theorem Operand.forall_mem_modify {P : Operand → Prop} {operands : List Operand}
    {f : Operand → Operand} (h : ∀ op ∈ operands, P op) (hf : ∀ op, P op → P (f op)) (i : Nat) :
    ∀ op ∈ operands.modify i f, P op := by
  intro op hop
  obtain ⟨j, hj⟩ := List.mem_iff_getElem?.1 hop
  rw [List.getElem?_modify] at hj
  obtain ⟨old, hold, rfl⟩ := Option.map_eq_some_iff.1 hj
  have hold := h old (List.mem_of_getElem? hold)
  split
  · exact hf old hold
  · exact hold

/-- The two frames process one instruction on the architecture, with operands
that may be named. -/
structure Frame.SameCode (arch : Architecture) (source : Operand → Prop) (s t : Frame) :
    Prop where
  archLeft : s.arch = arch
  archRight : t.arch = arch
  address : s.instruction.address = t.instruction.address
  length : s.instruction.length = t.instruction.length
  opcode : s.instruction.opcode = t.instruction.opcode
  operands : s.instruction.operands = t.instruction.operands
  sources : ∀ op ∈ s.instruction.operands, source op

/-! The judgements. -/

/-- How two runs of a step correspond. -/
structure Simulation where
  arch : Architecture
  World : Type
  le : World → World → Prop
  frames : World → Frame → Frame → Prop
  /-- What holds of the frames when the instruction is complete. -/
  final : Frame → Frame → Prop
  /-- What holds of the frames when the instruction has failed. -/
  failed : Error → Frame → Frame → Prop
  /-- Whether nothing may fail with a fatal error. -/
  sure : Prop
  /-- The operands that may be named. -/
  source : Operand → Prop
  /-- The operands that may be read as they are now. -/
  legible : World → Operand → Prop
  /-- The operands that may be written. -/
  target : Operand → Prop
  /-- Whether an operand may have two values. -/
  level : World → Operand → Bool
  /-- Corresponding formulas of a level. -/
  knows : World → Bool → Formula → Formula → Prop
  /-- The taints that the two runs may give to formulas of a level. -/
  taint : Bool → Bool → Bool → Prop
  /-- Whether an operand that is tainted is so in every part. -/
  whole : World → Operand → Prop

/-- What a step answers, or the error that it fails with. -/
def Step.answer {α : Type} : EStateM.Result Error Frame α → Except Error α
  | .ok a _ => .ok a
  | .error e _ => .error e

/-- The frame that a step leaves. -/
def Step.after {α : Type} : EStateM.Result Error Frame α → Frame
  | .ok _ s => s
  | .error _ s => s

theorem Step.eq_ok_of_answer {α : Type} {r : EStateM.Result Error Frame α} {a : α}
    (h : (Step.answer r).toOption = some a) : r = .ok a (Step.after r) := by
  cases r with
  | ok b s =>
    cases h
    rfl
  | error e s => cases h

/-- Two writes to places that may overlap, each with its taint. -/
def Step.exchange (dst src : Operand) (f g : Formula) (comment : String) (b c : Bool) :
    Step Unit := do
  let first ← write dst f comment
  let second ← write src g comment
  let firstTainted ← setTaint dst b
  let secondTainted ← setTaint src c
  stamp first firstTainted
  stamp second secondTainted

/-- Two results: answers related by `answers`, or one error with states related by
`errors`. -/
def Step.Outcomes {α β : Type} (errors : Error → Frame → Frame → Prop)
    (answers : α → β → Frame → Frame → Prop) :
    EStateM.Result Error Frame α → EStateM.Result Error Frame β → Prop
  | .ok a s, .ok b t => answers a b s t
  | .error e s, .error e' t => e = e' ∧ errors e s t
  | _, _ => False

section

variable {α β γ δ : Type} {errors errors' : Error → Frame → Frame → Prop}
  {answers : α → β → Frame → Frame → Prop} {r : EStateM.Result Error Frame α}
  {r' : EStateM.Result Error Frame β} {x : Step α}

/-- Both fail, with one error, or both answer. -/
theorem Step.Outcomes.cases (h : Outcomes errors answers r r') :
    (∃ e s t, r = .error e s ∧ r' = .error e t ∧ errors e s t) ∨
      ∃ a b s t, r = .ok a s ∧ r' = .ok b t ∧ answers a b s t := by
  cases r with
  | ok a s =>
    cases r' with
    | ok b t => exact .inr ⟨a, b, s, t, rfl, rfl, h⟩
    | error e t => exact False.elim h
  | error e s =>
    cases r' with
    | ok b t => exact False.elim h
    | error e' t => exact .inl ⟨e, s, t, rfl, h.1 ▸ rfl, h.2⟩

theorem Step.Outcomes.mono {answers' : α → β → Frame → Frame → Prop}
    (h : Outcomes errors answers r r') (he : ∀ e s t, errors e s t → errors' e s t)
    (ha : ∀ a b s t, answers a b s t → answers' a b s t) : Outcomes errors' answers' r r' := by
  rcases h.cases with ⟨e, s, t, rfl, rfl, hst⟩ | ⟨a, b, s, t, rfl, rfl, hst⟩
  · exact ⟨rfl, he e s t hst⟩
  · exact ha a b s t hst

theorem Step.Outcomes.imp {answers' : α → β → Frame → Frame → Prop}
    (h : Outcomes errors answers r r') (ha : ∀ a b s t, answers a b s t → answers' a b s t) :
    Outcomes errors answers' r r' := h.mono (fun _ _ _ he => he) ha

/-- What holds of related answers and of failures holds of the frames that are
left. -/
theorem Step.Outcomes.after {left : Frame → Frame → Prop}
    (h : Outcomes (fun _ => left) answers r r') (ha : ∀ a b s t, answers a b s t → left s t) :
    left (after r) (after r') := by
  rcases h.cases with ⟨e, s, t, rfl, rfl, hst⟩ | ⟨a, b, s, t, rfl, rfl, hst⟩
  · exact hst
  · exact ha a b s t hst

theorem Step.run_bind (x : Step α) (k : α → Step β) (s : Frame) :
    (x >>= k) s = match x s with
      | .ok a s => k a s
      | .error error s => .error error s := by
  show EStateM.bind x k s = _
  unfold EStateM.bind
  cases x s <;> rfl

theorem Step.of_bind_eq_ok {k : α → Step β} {s s' : Frame} {b : β} (h : (x >>= k) s = .ok b s') :
    ∃ a s₁, x s = .ok a s₁ ∧ k a s₁ = .ok b s' := by
  rw [run_bind] at h
  cases hx : x s with
  | ok a s₁ =>
    rw [hx] at h
    exact ⟨a, s₁, rfl, h⟩
  | error e s₁ =>
    rw [hx] at h
    cases h

theorem Step.Outcomes.bind {answers' : γ → δ → Frame → Frame → Prop} {y : Step β} {k : α → Step γ}
    {k' : β → Step δ} {s t : Frame} (hx : Outcomes errors answers (x s) (y t))
    (hk : ∀ a b s t, answers a b s t → Outcomes errors answers' (k a s) (k' b t)) :
    Outcomes errors answers' ((x >>= k) s) ((y >>= k') t) := by
  rw [run_bind, run_bind]
  rcases hx.cases with ⟨e, s', t', hs, ht, h⟩ | ⟨a, b, s', t', hs, ht, h⟩
  · rw [hs, ht]
    exact ⟨rfl, h⟩
  · rw [hs, ht]
    exact hk a b s' t' h

end

namespace Simulation

variable (S : Simulation)

/-- The two parts answer in the world in which they start, or fail alike. -/
def Reads {α β : Type} (w : S.World) (x : Step α) (y : Step β) (post : α → β → Prop) : Prop :=
  ∀ s t, S.frames w s t →
    Step.Outcomes S.failed (fun a b s t => S.frames w s t ∧ post a b) (x s) (y t)

/-- The two parts answer in a later world, or fail alike. -/
def Writes {α β : Type} (w : S.World) (x : Step α) (y : Step β)
    (post : S.World → α → β → Prop) : Prop :=
  ∀ s t, S.frames w s t →
    Step.Outcomes S.failed (fun a b s t => ∃ w', S.le w w' ∧ S.frames w' s t ∧ post w' a b)
      (x s) (y t)

/-- The two parts complete the instruction with one result. -/
def Ends {α : Type} (w : S.World) (x y : Step α) : Prop :=
  ∀ s t, S.frames w s t → Step.Outcomes S.failed (fun a b s t => S.final s t ∧ a = b) (x s) (y t)

/-! The two parts may be one. -/

abbrev BothRead {α : Type} (w : S.World) (x : Step α) := S.Reads w x x

abbrev BothWrite {α : Type} (w : S.World) (x : Step α) := S.Writes w x x

abbrev BothEnd {α : Type} (w : S.World) (x : Step α) : Prop := S.Ends w x x

/-- Where the two parts complete the instruction with one result, they lead to
related frames. -/
def Meets {α : Type} (w : S.World) (x y : Step α) : Prop :=
  ∀ s t, S.frames w s t → answer (x s) = answer (y t) →
    Step.Outcomes S.failed (fun _ _ => S.final) (x s) (y t)

def nothing {α β : Type} : S.World → α → β → Prop := fun _ _ _ => True

def levelOf (w : S.World) (id : Nat) : Bool :=
  (S.arch.register? id).elim false fun reg => S.level w (.register reg)

def levelOptional (w : S.World) (reg : Option Register) : Bool :=
  reg.elim false fun reg => S.level w (.register reg)

def addressLevel (w : S.World) (access : Access) : Bool :=
  S.levelOptional w access.base || S.levelOptional w access.index

structure Words : Prop where
  refl : ∀ w, S.le w w
  trans : ∀ {a b c}, S.le a b → S.le b c → S.le a c
  knows_mono : ∀ {w w' l f g}, S.le w w' → S.knows w l f g → S.knows w' l f g
  raise : ∀ {w l l' f g}, l ≤ l' → S.knows w l f g → S.knows w l' f g
  width_eq : ∀ {w l f g}, S.knows w l f g → f.width = g.width
  /-- What is known has the width of a word, if it is sure. -/
  width_range : ∀ {w l f g}, S.knows w l f g → S.sure → Formula.WordWidth f.width
  constant : ∀ {w} (value width : Nat), (S.sure → Formula.WordWidth width) →
    S.Reads w (exec (Exec.build (Build.constant value width)))
      (exec (Exec.build (Build.constant value width)))
      fun f g => S.knows w false f g ∧ f.width = width ∧ 0 < width
  call : ∀ {w l call call'}, Call.Corresponds (S.knows w l) call call' →
    S.Reads w (exec (Exec.build call.run)) (exec (Exec.build call'.run))
      fun f g => S.knows w l f g ∧ f.width = call.plain.width ∧ (S.sure → call.plain.Lawful)
  /-- What is combined with itself by exclusive or has one value in both runs. -/
  cancel : ∀ {w l f g}, S.knows w l f g →
    S.Reads w (exec (Exec.build (Build.xor f f))) (exec (Exec.build (Build.xor g g)))
      (S.knows w false)
  failed : ∀ {w e s t}, S.frames w s t → (S.sure → e.isFatal = false) → S.failed e s t

structure Reading : Prop extends Words S where
  code : ∀ {w s t}, S.frames w s t → s.SameCode S.arch S.source t
  /-- A world has one list of operands. -/
  operands : ∀ {w s t s' t'}, S.frames w s t → S.frames w s' t' →
    s.instruction.operands = s'.instruction.operands
  final : ∀ {w s t}, S.frames w s t → S.final s t
  source_range : ∀ {op}, S.source op → S.sure → Formula.WordWidth op.bits
  source_register : ∀ {reg}, S.arch.Has reg → S.source (.register reg)
  source_base : ∀ {access reg}, S.source (.memory access) → access.base = some reg →
    S.source (.register reg)
  source_index : ∀ {access reg}, S.source (.memory access) → access.index = some reg →
    S.source (.register reg)
  legible_register : ∀ {w reg}, S.legible w (.register reg)
  target_root : ∀ {reg}, S.arch.Has reg → reg.isRoot = true → S.arch.isZeroRegister reg = false →
    S.target (.register reg)
  evaluate : ∀ {w f g s t}, S.frames w s t → S.knows w false f g →
    s.evaluate f = t.evaluate g
  registerFormula : ∀ {w reg}, S.source (.register reg) → S.arch.isZeroRegister reg = false →
    S.Reads w (exec (Engine.registerFormula reg)) (exec (Engine.registerFormula reg))
      (S.knows w (S.level w (.register reg)))
  load : ∀ {w access}, S.legible w (.memory access) →
    S.Reads w (Step.load access) (Step.load access)
      fun f g => S.knows w (S.level w (.memory access)) f g ∧ (S.sure → 1 ≤ access.bytes)

/-- The laws of the parts that every instruction is made of. -/
structure Laws : Prop extends Reading S where
  /-- A register has the level of its root. -/
  level_parent : ∀ {w reg reg'}, S.arch.Has reg → S.arch.Has reg' → reg.parent = reg'.parent →
    S.level w (.register reg) = S.level w (.register reg')
  taint_false : S.taint false false false
  taint_or : ∀ {l m a a' b b'}, S.taint l a a' → S.taint m b b' →
    S.taint (l || m) (a || b) (a' || b')
  isOperand : ∀ {w s t}, S.frames w s t → ∀ op, S.taint (S.level w op)
    (s.taint.isOperand s.pointerTaint op)
    (t.taint.isOperand t.pointerTaint op)
  /-- A choice by a condition: the taint of what is not chosen does not count. -/
  select : ∀ {w l m n c c' f f' g g'}, S.knows w l c c' → S.knows w m f f' → S.knows w n g g' →
    S.Reads w (exec (Exec.build (Build.ite c f g))) (exec (Exec.build (Build.ite c' f' g')))
      fun r r' => ∀ s t, S.frames w s t → ∀ {a a' b b' d d'}, S.taint l a a' → S.taint m b b' →
        S.taint n d d' → ∃ k, S.knows w k r r' ∧
          S.taint k (a || d || (s.evaluate c ≠ 0 && b)) (a' || d' || (t.evaluate c' ≠ 0 && b'))
  /-- A destination takes a formula and a taint that covers it. -/
  set : ∀ {w l dst f g b b'} (comment : String), S.target dst → S.knows w l f g →
    S.taint l b b' →
    S.Writes w (assign dst f comment (setTaint dst b))
      (assign dst g comment (setTaint dst b')) fun _ => S.taint l
  /-- A destination takes a formula and keeps its taint. -/
  keep : ∀ {w dst f g} (comment : String), S.target dst → S.whole w dst →
    S.knows w (S.level w dst) f g →
    S.Writes w (assign dst f comment (isTainted dst))
      (assign dst g comment (isTainted dst)) fun _ => S.taint (S.level w dst)
  /-- A root that is given the taint it has keeps the levels as they are. -/
  restore : ∀ {w reg f g b b'} (comment : String), S.arch.Has reg → reg.isRoot = true →
    S.arch.isZeroRegister reg = false → S.knows w (S.level w (.register reg)) f g →
    (∃ s t, S.frames w s t ∧ b = s.taint.isRegister reg ∧
      b' = t.taint.isRegister reg) →
    S.Writes w (assign (.register reg) f comment (setTaint (.register reg) b))
      (assign (.register reg) g comment (setTaint (.register reg) b'))
      fun w' _ _ => ∀ op, S.level w' op = S.level w op
  /-- Two destinations are written, and then take their taints in the same order. -/
  exchange : ∀ {w l m dst src f f' g g' b b' c c'} (comment : String), S.target dst →
    S.target src → S.knows w l f f' → S.knows w m g g' → S.taint l b b' → S.taint m c c' →
    S.Writes w (Step.exchange dst src f g comment b c) (Step.exchange dst src f' g' comment b' c')
      S.nothing
  volatile : ∀ {w l f g b b'} (comment : String), S.knows w l f g → S.taint l b b' →
    S.Writes w (Step.volatile f comment b) (Step.volatile g comment b') S.nothing

/-- What the taints have to cover does not depend on the level. -/
def Flat : Prop := ∀ {l l' b b'}, S.taint l b b' → S.taint l' b b'

/-! The rules of the judgements. -/

variable {S} {w : S.World} {α β γ δ : Type} {x : Step α} {y : Step β} {k : α → Step γ}
  {k' : β → Step δ} {post : α → β → Prop}

theorem Reads.pure {a : α} {b : β} (h : post a b) :
    S.Reads w (pure a) (pure b) post := fun _ _ hst => ⟨hst, h⟩

section

variable (hx : S.Reads w x y post)

include hx

/-- What is answered was found in frames of the world. -/
theorem Reads.remember : S.Reads w x y fun a b => post a b ∧
      ∃ s t s' t', S.frames w s t ∧ x s = .ok a s' ∧ y t = .ok b t' := by
  intro s t hst
  rcases (hx s t hst).cases with ⟨e, s', t', hs, ht, h⟩ | ⟨a, b, s', t', hs, ht, h⟩
  · rw [hs, ht]
    exact ⟨rfl, h⟩
  · rw [hs, ht]
    exact ⟨h.1, h.2, s, t, s', t', hst, hs, ht⟩

theorem Reads.mono {post' : α → β → Prop} (h : ∀ a b, post a b → post' a b) : S.Reads w x y post' :=
  fun s t hst => (hx s t hst).imp fun a b _ _ ha => ⟨ha.1, h a b ha.2⟩

/-- Two facts about the same answers. -/
theorem Reads.both {post' : α → β → Prop} (hy : S.Reads w x y post') :
    S.Reads w x y fun a b => post a b ∧ post' a b := by
  intro s t hst
  have h' := hy s t hst
  rcases (hx s t hst).cases with ⟨e, s', t', hs, ht, h⟩ | ⟨a, b, s', t', hs, ht, h⟩
  · rw [hs, ht]
    exact ⟨rfl, h⟩
  · rw [hs, ht] at h' ⊢
    exact ⟨h.1, h.2, h'.2⟩

theorem Reads.bind {post' : γ → δ → Prop} (hk : ∀ a b, post a b → S.Reads w (k a) (k' b) post') :
    S.Reads w (x >>= k) (y >>= k') post' :=
  fun s t hst => (hx s t hst).bind fun a b s t hab => hk a b hab.2 s t hab.1

end

theorem Reads.ite {c : Prop} [Decidable c] {x' : Step α} {y' : Step β}
    (h₁ : c → S.Reads w x y post) (h₂ : ¬ c → S.Reads w x' y' post) :
    S.Reads w (if c then x else x') (if c then y else y') post :=
  both_ite (S.Reads w · · post) h₁ h₂

theorem Reads.fail (W : S.Words) {e : Error} (he : S.sure → e.isFatal = false) :
    S.Reads w (throw e) (throw e) post :=
  fun _ _ hst => ⟨rfl, W.failed hst he⟩

theorem Reads.look {f : Frame → α} {g : Frame → β} (h : ∀ s t, S.frames w s t → post (f s) (g t)) :
    S.Reads w (fun s => .ok (f s) s) (fun t => .ok (g t) t) post :=
  fun s t hst => ⟨hst, h s t hst⟩

theorem Words.sideBySide (W : S.Words) :
    SideBySide fun {α β : Type} (x : Step α) (y : Step β) post => S.Reads w x y post :=
  ⟨.pure, fun he => .fail W fun _ => he, fun h => h.bind⟩

section

variable (W : S.Words)

include W

theorem Reads.writes {post' : S.World → α → β → Prop} (hx : S.Reads w x y post)
    (h : ∀ a b, post a b → post' w a b) : S.Writes w x y post' :=
  fun s t hst => (hx s t hst).imp fun a b _ _ ha => ⟨w, W.refl w, ha.1, h a b ha.2⟩

theorem Writes.pure {post : S.World → α → β → Prop} {a : α} {b : β} (h : post w a b) :
    S.Writes w (pure a) (pure b) post := fun _ _ hst => ⟨w, W.refl w, hst, h⟩

omit W in
theorem Writes.mono {post post' : S.World → α → β → Prop}
    (hx : S.Writes w x y post) (h : ∀ w a b, post w a b → post' w a b) : S.Writes w x y post' := by
  refine fun s t hst => (hx s t hst).imp fun a b s t ha => ?_
  obtain ⟨w', hle, hst', hpost⟩ := ha
  exact ⟨w', hle, hst', h w' a b hpost⟩

omit W in
/-- A look at the present world, then more. -/
theorem Reads.then {post' : S.World → γ → δ → Prop} (hx : S.Reads w x y post)
    (hk : ∀ a b, post a b → S.Writes w (k a) (k' b) post') :
    S.Writes w (x >>= k) (y >>= k') post' :=
  fun s t hst => (hx s t hst).bind fun a b s t hab => hk a b hab.2 s t hab.1

/-- A change, then more in the world that it leads to. -/
theorem Words.bind {post : S.World → α → β → Prop} {post' : S.World → γ → δ → Prop}
    (hx : S.Writes w x y post)
    (hk : ∀ w', S.le w w' → ∀ a b, post w' a b → S.Writes w' (k a) (k' b) post') :
    S.Writes w (x >>= k) (y >>= k') post' := by
  intro s t hst
  refine (hx s t hst).bind fun a b s t hab => ?_
  obtain ⟨w', hle, hst', hpost⟩ := hab
  refine (hk w' hle a b hpost s t hst').imp fun c d s t hc => ?_
  obtain ⟨w'', hle', hst'', hpost'⟩ := hc
  exact ⟨w'', W.trans hle hle', hst'', hpost'⟩

/-- Actions in a row, each of which starts from what holds in every later world. -/
theorem Writes.forM {ι : Type} {f g : ι → Step PUnit} (l : List ι) {w : S.World}
    (h : ∀ i ∈ l, ∀ w', S.le w w' → S.Writes w' (f i) (g i) S.nothing) :
    S.Writes w (l.forM f) (l.forM g) S.nothing := by
  induction l generalizing w with
  | nil => exact pure W trivial
  | cons i l ih =>
    refine W.bind (h i (by simp) w (W.refl w)) fun w' hle _ _ _ => ?_
    exact ih fun j hj w'' hle' => h j (by simp [hj]) w'' (W.trans hle hle')

end

theorem Ends.pure (L : S.Laws) (a : α) : S.BothEnd w (pure a) := fun _ _ hst => ⟨L.final hst, rfl⟩

theorem Ends.after {k' : β → Step γ} (hx : S.Reads w x y post)
    (hk : ∀ a b, post a b → S.Ends w (k a) (k' b)) : S.Ends w (x >>= k) (y >>= k') :=
  fun s t hst => (hx s t hst).bind fun a b s t hab => hk a b hab.2 s t hab.1

theorem Ends.bind {k' : β → Step γ} {post : S.World → α → β → Prop} (hx : S.Writes w x y post)
    (hk : ∀ w', S.le w w' → ∀ a b, post w' a b → S.Ends w' (k a) (k' b)) :
    S.Ends w (x >>= k) (y >>= k') := by
  intro s t hst
  refine (hx s t hst).bind fun a b s t hab => ?_
  obtain ⟨w', hle, hst', hpost⟩ := hab
  exact hk w' hle a b hpost s t hst'

/-- What is shown may rest on what is known of the world's frames. -/
theorem Ends.of_frames {x y : Step α} (h : ∀ s t, S.frames w s t → S.Ends w x y) :
    S.Ends w x y := fun s t hst => h s t hst s t hst

theorem Ends.meets {x y : Step α} (h : S.Ends w x y) : S.Meets w x y :=
  fun s t hst _ => (h s t hst).imp fun _ _ _ _ hab => hab.1

end Simulation

end Concolic
