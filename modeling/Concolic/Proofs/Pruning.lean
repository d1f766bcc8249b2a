import Concolic.Proofs.Operations

/-
  What the filters leave of an instruction.

  Two modes leave out the expressions of an instruction in which no variable occurs, or
  whose result is not tainted. Once the instruction is executed, a place is bound to what
  was written to it last (`Symbolic.Latest`). Then the expressions that do not pass are taken
  off the list, and unbound where they are bound still: a place that was last written by one
  of them falls back to its concrete value, also where an earlier write of the same
  instruction would have passed, and nothing else is touched (`filters_prune`).
-/

namespace Concolic

open Step

variable {origin : Origin} {place : Place} {x : Expression}

/-! Last writes. -/

namespace Symbolic

variable {s s' : Symbolic}

/-- What a place is bound to was assigned to it. -/
theorem Grounded.covers {words bytes : Prop} {arch : Architecture} {scope : Scope}
    (h : s.Grounded words bytes arch scope) {id : Nat}
    (hid : (s.cell? place).map Cell.expression = some id) :
    ∃ x, s.expressions[id]? = some x ∧ x.id = id ∧ x.origin.Covers place := by
  obtain ⟨cell, hcell, rfl⟩ := Option.map_eq_some_iff.1 hid
  cases place with
  | byte address =>
    obtain ⟨x, hx, hcovers⟩ := h.cells address cell hcell
    exact ⟨x, hx, h.ids _ x hx, hcovers⟩
  | root key =>
    obtain ⟨id, hkeyed, rfl⟩ := Option.map_eq_some_iff.1 hcell
    obtain ⟨x, hx, reg, horigin, hkey, -⟩ := h.registers key id hkeyed
    exact ⟨x, hx, h.ids _ x hx, horigin ▸ hkey⟩

/-- The places of every expression from the number `first` on are bound to it or to a later
one. -/
def Latest (first : Nat) (s : Symbolic) : Prop :=
  ∀ (i : Nat) (x : Expression) (place : Place), first ≤ i → s.expressions[i]? = some x →
    x.origin.Covers place → ∃ j, i ≤ j ∧ (s.cell? place).map Cell.expression = some j

/-- The expression was made between the two states. -/
def Made (s₀ s : Symbolic) (x : Expression) : Prop :=
  s₀.expressions.size ≤ x.id ∧ s.expressions[x.id]? = some x

/-- The expression was made between the two states for the place, and none after it. -/
structure LastWrite (s₀ s : Symbolic) (place : Place) (x : Expression) : Prop where
  made : s₀.Made s x
  covers : x.origin.Covers place
  latest : ∀ y, s₀.Made s y → y.origin.Covers place → y.id ≤ x.id

theorem Latest.updates {first id : Nat} {change : Expression → Expression} (h : s.Latest first)
    (hs : Updates id change s s') (hcore : ∀ x, (change x).core = x.core) : s'.Latest first := by
  intro i y place hi hy hcovers
  obtain ⟨x, hx, hsame⟩ := hs.exists hcore hy
  rw [hs.cell?]
  exact h i x place hi hx (Expression.origin_of_core hsame ▸ hcovers)

section

variable {s₀ : Symbolic} {words bytes : Prop} {arch : Architecture} {scope : Scope}
  (h : s.Latest s₀.expressions.size) (hs : s.Grounded words bytes arch scope)

include h hs

/-- The last write of a place is what it is bound to. -/
theorem Latest.bound (hx : s₀.LastWrite s place x) :
    (s.cell? place).map Cell.expression = some x.id := by
  obtain ⟨j, hle, hbound⟩ := h x.id x place hx.made.1 hx.made.2 hx.covers
  obtain ⟨y, hy, rfl, hcovers⟩ := hs.covers hbound
  have hlast := hx.latest y ⟨Nat.le_trans hx.made.1 hle, hy⟩ hcovers
  rw [hbound, Nat.le_antisymm hlast hle]

/-- What was made since and is bound to a place is its last write. -/
theorem Latest.lastWrite (hx : s₀.Made s x)
    (hbound : (s.cell? place).map Cell.expression = some x.id) : s₀.LastWrite s place x := by
  obtain ⟨y, hy, -, hcovers⟩ := hs.covers hbound
  rw [hx.2] at hy
  obtain rfl := Option.some.inj hy
  refine ⟨hx, hcovers, fun y hy hcovers => ?_⟩
  obtain ⟨j, hle, hj⟩ := h y.id y place hy.1 hy.2 hcovers
  rw [hbound] at hj
  exact Option.some.inj hj ▸ hle

end

end Symbolic

namespace Frame

variable {s₀ s s' : Frame}

/-- A recording leaves its places bound to the new expression. -/
theorem Records.latest {first : Nat} {f : Formula} {comment : String} {m : Machine}
    (hs : s.Records f origin comment m s') (h : s.symbolic.Latest first) :
    s'.symbolic.Latest first := by
  let x := s.newExpression f origin comment
  have hassigned : ((s.symbolic.enter x).bindOrigin (s.modes.isOn .alignedMemory)
      origin s.symbolic.expressions.size).Latest first := by
    intro i y place hi hy hcovers
    have htable := s.engine.expressions_assign x origin m
    replace htable : ((s.symbolic.enter x).bindOrigin _ origin _).expressions = _ := htable
    rw [htable, Array.getElem?_push] at hy
    by_cases hplace : origin.Covers place
    · obtain ⟨byte, hcell⟩ := Symbolic.cell?_bindOrigin_of_covers hplace
      refine ⟨_, ?_, congrArg (Option.map Cell.expression) (hcell _ _ _)⟩
      split at hy
      · next heq => exact heq.le
      · exact (Array.getElem?_eq_some_iff.1 hy).1.le
    · rw [Symbolic.cell?_bindOrigin _ _ _ hplace]
      split at hy
      -- the new expression was assigned to other places
      · obtain rfl := Option.some.inj hy
        exact absurd hcovers hplace
      · exact h i y place hi hy hcovers
  exact hassigned.updates hs.updates fun x => by unfold Expression.note; split <;> rfl

/-- What an instruction keeps up from its start: places are bound to its last writes. -/
def latest (s₀ : Frame) : Upkeep where
  start := s₀
  words := False
  bytes := False
  holds s := s.symbolic.Latest s₀.symbolic.expressions.size
  final s := s.symbolic.Latest s₀.symbolic.expressions.size
  failed _ := True

theorem latest_laws (s₀ : Frame) : s₀.latest.Laws where
  words := id
  bytes := False.elim
  final h := h.holds
  failed _ := trivial
  quiet h hs := by
    obtain ⟨pool, array, rfl⟩ := hs
    exact h.holds
  fresh h _ := h.holds
  record h _ hs := hs.latest h.holds
  retaint _ h _ _ := h.holds
  stamp h hs := h.holds.updates hs fun _ => rfl
  steer _ _ _ _ _ h _ := ⟨h.holds, trivial⟩
  torn _ _ _ _ := trivial

theorem Accounts.lists_iff (h : s₀.Accounts s) : s.Lists x ↔ s₀.symbolic.Made s.symbolic x := by
  rw [Lists, Symbolic.Made, Array.mem_def, h.list, List.mem_range'_1]
  refine and_congr_left fun hx => ⟨And.left, fun hle => ⟨hle, ?_⟩⟩
  have hlt := (Array.getElem?_eq_some_iff.1 hx).1
  omega

end Frame

/-! The filters. -/

/-- The expression passes every filter that is on. -/
def Expression.Passes (modes : Modes) (x : Expression) : Prop :=
  (modes.isOn .onlyOnSymbolized = true → x.formula.symbolic = true) ∧
    (modes.isOn .onlyOnTainted = true → x.tainted = true)

theorem Expression.passes_iff {modes : Modes} : x.Passes modes ↔ keeps modes x = true := by
  unfold Passes keeps
  cases modes.isOn .onlyOnSymbolized <;> cases modes.isOn .onlyOnTainted <;> simp

/-- An instruction that was executed in the engine `e` and led to `u` is pruned, and leads
to `s`. -/
structure Engine.Prunes (e : Engine) (u s : Frame) : Prop where
  rest : s.engine = { u.engine with symbolic := s.symbolic }
  expressions : s.symbolic.expressions = u.symbolic.expressions
  /-- The instruction lists what it made and passes, in the order in which it was made. -/
  ordered : s.instruction.expressions.toList.Pairwise (· < ·)
  listed : ∀ id, id ∈ s.instruction.expressions ↔
    ∃ x, e.symbolic.Made u.symbolic x ∧ x.id = id ∧ x.Passes e.modes
  tainted : s.instruction.tainted = true ↔
    ∃ id ∈ s.instruction.expressions, ∃ x, s.symbolic.expressions[id]? = some x ∧
      x.tainted = true
  /-- Nothing is bound to what does not pass. -/
  dropped : ∀ x, e.symbolic.Made u.symbolic x → ¬ x.Passes e.modes →
    (∀ place, (s.symbolic.cell? place).map Cell.expression ≠ some x.id) ∧
      ∀ w ∈ s.symbolic.aligned, w.expression ≠ x.id
  /-- A place is bound to its last write if that passes, and unbound if it does not. -/
  bound : ∀ place x, e.symbolic.LastWrite u.symbolic place x → x.Passes e.modes →
    (s.symbolic.cell? place).map Cell.expression = some x.id
  unbound : ∀ place x, e.symbolic.LastWrite u.symbolic place x → ¬ x.Passes e.modes →
    s.symbolic.cell? place = none
  /-- All other bindings are the same. -/
  cells : ∀ place, (∀ x, e.symbolic.LastWrite u.symbolic place x → x.Passes e.modes) →
    s.symbolic.cell? place = u.symbolic.cell? place
  aligned : ∀ w, w ∈ s.symbolic.aligned ↔ w ∈ u.symbolic.aligned ∧
    ∀ x, e.symbolic.Made u.symbolic x → x.id = w.expression → x.Passes e.modes

/-- What is left of an executed instruction once it is settled. -/
theorem Frame.Settles.prunes {s₀ u s : Frame} (haccounts : s₀.Accounts u)
    (hlatest : u.symbolic.Latest s₀.symbolic.expressions.size)
    (hgrounded : u.Grounded False False) (hmodes : u.modes = s₀.modes)
    (hs : u.Settles s) : s₀.engine.Prunes u s := by
  have hfewer := hs.symbolic.toFewer
  have hdropped {x : Expression} : u.Lists x ∧ keeps u.modes x = false ↔
      s₀.symbolic.Made u.symbolic x ∧ ¬ x.Passes s₀.modes := by
    rw [haccounts.lists_iff, Expression.passes_iff, Bool.not_eq_true, hmodes]
  have hkept {place : Place} (h : ∀ x, s₀.symbolic.LastWrite u.symbolic place x →
      x.Passes s₀.modes) : s.symbolic.cell? place = u.symbolic.cell? place := by
    refine hs.symbolic.kept place fun x hx hb => ?_
    obtain ⟨hx, hfails⟩ := hdropped.1 hx
    exact hfails (h x (hlatest.lastWrite hgrounded hx hb.1))
  have hfreed {place : Place} {x : Expression}
      (hx : s₀.symbolic.LastWrite u.symbolic place x)
      (hfails : ¬ x.Passes s₀.modes) : s.symbolic.cell? place = none :=
    hs.symbolic.freed place x (hdropped.2 ⟨hx.made, hfails⟩) ⟨hlatest.bound hgrounded hx, hx.covers⟩
  have hwhole := hs.symbolic.whole hgrounded.toPlaced
  refine {
    rest := hs.engine
    expressions := hfewer.expressions
    ordered := ?_
    listed := fun id => ?_
    tainted := ?_
    dropped := fun x hx hfails => ⟨fun place hb => ?_, fun w hw => ?_⟩
    bound := fun place x hx hpasses => ?_
    unbound := fun place x => hfreed
    cells := fun place => hkept
    aligned := fun w => ?_ }
  · rw [hs.list, haccounts.list]
    exact List.Pairwise.filter _ List.pairwise_lt_range'
  · rw [Array.mem_def, hs.list, List.mem_filter, ← Array.mem_def]
    constructor
    · rintro ⟨hid, hany⟩
      obtain ⟨x, hx, hkeeps⟩ := (Option.any_eq_true _ _).1 hany
      obtain rfl := hgrounded.ids id x hx
      exact ⟨x, haccounts.lists_iff.1 ⟨hid, hx⟩, rfl, Expression.passes_iff.2 (hmodes ▸ hkeeps)⟩
    · rintro ⟨x, hx, rfl, hpasses⟩
      refine ⟨(haccounts.lists_iff.2 hx).1, (Option.any_eq_true _ _).2 ⟨x, hx.2, ?_⟩⟩
      exact hmodes ▸ Expression.passes_iff.1 hpasses
  · rw [hs.tainted, Frame.someTainted, List.any_eq_true]
    exact exists_congr fun id => and_congr Array.mem_def.symm (Option.any_eq_true _ _)
  -- a dropped expression that a place was bound to is the last write of the place
  · obtain ⟨cell, hcell, hid⟩ := Option.map_eq_some_iff.1 hb
    have hbound := Option.map_eq_some_iff.2 ⟨cell, hfewer.cell? hcell, hid⟩
    rw [hfreed (hlatest.lastWrite hgrounded hx hbound) hfails] at hcell
    cases hcell
  · exact (((hwhole w).1 hw).2 x (hdropped.2 ⟨hx, hfails⟩)).symm
  · rw [hkept fun y hy => ?_]
    · exact hlatest.bound hgrounded hx
    · have hle := hx.latest y hy.made hy.covers
      have hge := hy.latest x hx.made hx.covers
      have hfound := hy.made.2
      rw [Nat.le_antisymm hle hge, hx.made.2] at hfound
      exact Option.some.inj hfound ▸ hpasses
  · rw [hwhole w]
    refine and_congr_right fun _ => forall_congr' fun x => ?_
    rw [hdropped]
    tauto

/-- In every engine that operations lead to, an instruction that is processed leads to what
its execution leads to, but for the expressions that do not pass the filters: these are not
listed, and are unbound wherever they were written last. -/
theorem filters_prune {arch : Architecture} {modes : Modes} {e : Engine} {given : List Formula}
    (h : Engine.Turns False { arch, modes } [] e given) {inst : Instruction}
    (hoperands : ∀ op ∈ inst.operands, op.Known) {fault : Option Fault} {s : Frame}
    (hrun : process ⟨e, inst⟩ = .ok fault s) :
    ∃ u, execute (Frame.start ⟨e, inst⟩) = .ok fault u ∧ e.Prunes u s := by
  have hgrounded := (h.kept (.start False arch modes)).1.grounded
  have hheld : (Frame.start ⟨e, inst⟩).latest.Held (Frame.start ⟨e, inst⟩) := by
    refine ⟨⟨rfl, rfl, .refl _, hgrounded⟩, hoperands, fun i x place hi hx => ?_⟩
    exact absurd (Array.getElem?_eq_some_iff.1 hx).1 (Nat.not_lt.2 hi)
  have hlaws := (Frame.start ⟨e, inst⟩).latest_laws.steps
  have hlatest := hlaws.execute (fun h => h.holds) hheld fun _ _ => hlaws.opens id trivial _
  obtain ⟨u, hu, haccounts, hsettles⟩ :=
    Frame.of_process_eq_ok (s := ⟨e, inst⟩) id False.elim hoperands hgrounded hrun
  rw [hu] at hlatest
  exact ⟨u, hu, hsettles.prunes haccounts.final hlatest.final haccounts.grounded haccounts.modes⟩

/-- An exchange of the stack pointer with memory. -/
def exchangePointer : Instruction :=
  .decoded 0x400000 4 100
    [.memory (.fixed 0x1000 64), .register Architecture.x86_64.stackPointer] ""

/-- The stack pointer is symbolic and what it is exchanged with is not: of the three writes
only that of memory is kept, as a whole write too, and the stack pointer is unbound. -/
theorem filters_prune_exchangePointer :
    ∃ (e : Engine) (given : List Formula) (s : Frame),
      (Engine.Turns False (.new .x86_64) [] e given ∧ process ⟨e, exchangePointer⟩ = .ok none s ∧
        e.modes.isOn .onlyOnSymbolized = true ∧
        s.instruction.expressions = #[1] ∧ s.symbolic.expressions.size = 4 ∧
        s.symbolic.aligned = [⟨0x1000, 8, 1⟩] ∧
        e.symbolic.cell? (.root Architecture.x86_64.stackPointer.id) = some ⟨0, 0⟩ ∧
        s.symbolic.cell? (.root Architecture.x86_64.stackPointer.id) = none) ∧
      ∃ u, execute (Frame.start ⟨e, exchangePointer⟩) = .ok none u ∧ e.Prunes u s := by
  have hsp := Architecture.x86_64.stackPointer_has
  have hknown : ∀ op ∈ exchangePointer.operands, op.Known :=
    Instruction.decoded_two (Operand.known_fixed _ _) ⟨_, hsp⟩
  have turns := Engine.turns_run False (.new .x86_64) [] [.setMode .onlyOnSymbolized true,
    .setMode .alignedMemory true, .symbolizeRegister Architecture.x86_64.stackPointer]
    (by simp [Action.Known])
  -- the run is evaluated once, and not looked into again
  exact Exists₃.imp (fun e given s h => ⟨h, filters_prune h.1 hknown h.2.1⟩)
    ⟨_, _, _, turns, eq_ok_of_answer (by decide +kernel), by decide +kernel⟩

end Concolic
