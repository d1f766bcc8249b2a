import Concolic.Proofs.Lockstep.X86.Arithmetic

/-
  The x86 instructions run in lockstep.

  A stack instruction looks at the value of the stack pointer and a rotation at
  that of its count, so their lemmas suppose that the two runs see one value. A
  division decides by values whether it is a fault, before anything is written:
  where two runs give one result, they both wrote or both did not. What else the
  lockstep of an operation takes is gathered in `Op.Demands`.
-/

namespace Concolic.X86

open Simulation (Laws Covers Reads Writes Ends)
open Step Build Architecture

variable {f f' g g' r r' : Formula} {bits : Nat} {b b' : Bool} {op : Op}

/-! What an operation writes. -/

def productTargets (bits : Nat) : List Nat :=
  if bits = 8 then [ax] else (halves? bits).elim [] fun pair => [pair.low, pair.high]

def quotientTargets (bits : Nat) : List Nat :=
  (halves? bits).elim [] fun pair => [pair.low, pair.high]

/-- The places of the factors of a multiplication into its first operand. -/
def factorPlaces (count : Nat) : List Nat := if count = 2 then [0, 1] else [1, 2]

/-- The places of the operands that an operation reads, by their number. -/
def Op.reads (count : Nat) : Op → List Nat
  | add | adc | sub | sbb | cmp | bitwise _ | test | xchg | moveIf _ | shift _ | rotate _ => [0, 1]
  | inc | dec | neg | not | bswap | push | call | jump | jumpIf _ | mul | divide _ => [0]
  | mov | extend _ => [1]
  | imul => if count = 1 then [0] else factorPlaces count
  | _ => []

/-- The places of the operands that an operation writes, by their number. -/
def Op.explicitTargets (count : Nat) : Op → List Nat
  | add | adc | sub | sbb | bitwise _ | inc | dec | neg | not | mov | extend _ | lea | bswap
  | pop | setIf _ | moveIf _ | shift _ | rotate _ => [0]
  | xchg => [0, 1]
  | imul => if count = 1 then [] else [0]
  | _ => []

/-- The registers that an operation writes without naming them, the stack pointer, the
program counter and the flags apart. -/
def Op.implicitTargets (operands : List Operand) : Op → List Nat
  | mul => (operands[0]?).elim [] fun src => productTargets src.bits
  | imul =>
    if operands.length = 1 then (operands[0]?).elim [] fun src => productTargets src.bits
    else []
  | divide _ => (operands[0]?).elim [] fun src => quotientTargets src.bits
  | widen _ target => [target]
  | spread _ target => [target]
  | _ => []

variable {S : Simulation} {w : S.World} {l : Bool} (L : S.Laws)

include L

/-! Multiplication. -/

omit L in
/-- The widths of accumulators are those of words, up to half the greatest. -/
theorem halves?_range {pair : Halves} (h : halves? bits = some pair) : 8 ≤ bits ∧ bits ≤ 64 := by
  unfold halves? at h
  split at h
  all_goals first | (constructor <;> decide) | cases h

theorem halves_lockstep (bits : Nat) :
    S.BothRead w (halves bits) fun p p' => p = p' ∧ halves? bits = some p := by
  unfold halves
  cases halves? bits with
  | none => exact L.refuse fun _ => rfl
  | some pair => exact .pure ⟨rfl, rfl⟩

theorem writeProduct_lockstep (comment : String) (ht : ∀ id ∈ productTargets bits, S.TargetId id)
    (hf : S.knows w l f f') (hb : S.taint l b b') :
    S.Writes w (writeProduct bits f comment b) (writeProduct bits f' comment b') S.nothing := by
  refine (halves_lockstep L bits).then fun pair pair' hpair => ?_
  obtain ⟨rfl, hpair⟩ := hpair
  have hrange := halves?_range hpair
  unfold productTargets at ht
  by_cases hbits : bits = 8
  · rw [if_pos hbits] at ht
    rw [if_pos hbits, if_pos hbits]
    exact L.writeRegister _ _ (ht ax (by simp)) hf hb
  · rw [if_neg hbits, hpair] at ht
    rw [if_neg hbits, if_neg hbits]
    refine (L.minus fun _ => by omega).then fun top top' htop => ?_
    subst htop
    refine (L.extract _ _ hf).then fun low low' hlow => ?_
    refine (L.minus fun _ => by omega).then fun last last' hlast => ?_
    subst hlast
    refine (L.extract _ _ hf).then fun high high' hhigh => ?_
    refine L.bind (L.writeRegister _ _ (ht pair.low (by simp)) hlow hb) fun w' hle _ _ _ => ?_
    exact L.writeRegister _ _ (ht pair.high (by simp)) (L.knows_mono hle hhigh) hb

theorem product_lockstep (signed : Bool) (bits : Nat) (hf : S.knows w l f f')
    (hg : S.knows w l g g') :
    S.Builds w (product signed bits f g) (product signed bits f' g') (S.knows w l) := by
  refine .ite (fun _ => ?_) fun _ => ?_
  · refine (L.signExtend _ hf).bind fun a a' ha => ?_
    exact (L.signExtend _ hg).bind fun b b' hb => L.arith .mul ha hb
  · refine (L.zeroExtend _ hf).bind fun a a' ha => ?_
    exact (L.zeroExtend _ hg).bind fun b b' hb => L.arith .mul ha hb

structure Product.Corresponds (S : Simulation) (w : S.World) (l : Bool) (p p' : Product) :
    Prop where
  bits : p.bits = p'.bits
  full : S.knows w l p.full p'.full
  tainted : S.taint l p.tainted p'.tainted
  width : S.sure → Formula.WordWidth p.bits

theorem Product.overflow_lockstep (signed : Bool) {p p' : Product} (hp : p.Corresponds S w l p') :
    S.Builds w (p.overflow signed) (p'.overflow signed) (S.knows w l) := by
  unfold overflow
  rw [← hp.bits]
  refine .ite (fun _ => ?_) fun _ => ?_
  · refine (L.minus fun hs => (hp.width hs).1).bind fun top top' htop => ?_
    subst htop
    refine (L.extract _ _ hp.full).bind fun low low' hlow => ?_
    exact (L.signExtend _ hlow).bind fun e e' he => L.compare .ne he hp.full
  · refine (L.minus fun hs => by have := (hp.width hs).1; omega).bind fun top top' htop => ?_
    subst htop
    refine (L.extract _ _ hp.full).bind fun high high' hhigh => ?_
    exact (L.zero l hp.width).bind fun zero zero' hzero => L.compare .ne hhigh hzero

theorem writeProductFlags_lockstep (C : S.Covers) (hx : S.arch.isX86 = true) (signed : Bool)
    {p p' : Product} (hp : ∃ l, p.Corresponds S w l p') :
    S.Writes w (writeProductFlags signed p) (writeProductFlags signed p') S.nothing := by
  obtain ⟨l, hp⟩ := hp
  refine (p.overflow_lockstep L signed hp).then fun f f' hf => ?_
  refine L.bind (undefineFlag_lockstep C hx (by decide)) fun w₁ h₁ _ _ _ => ?_
  have hf₁ := L.knows_mono h₁ hf
  refine L.bind (writeFlag_lockstep L _ hf₁ hp.tainted) fun w₂ h₂ _ _ _ => ?_
  refine L.bind (writeFlag_lockstep L _ (L.knows_mono h₂ hf₁) hp.tainted) fun w₃ _ _ _ _ => ?_
  have hall : ∀ id ∈ [pf, sf, zf], id ∈ statusFlags := by decide
  exact Writes.forM L.toWords _ fun id hid w' _ => undefineFlag_lockstep C hx (hall id hid)

theorem multiplyAccumulator_lockstep (signed : Bool) (comment : String)
    (ht : S.At w 0 fun src => ∀ id ∈ productTargets src.bits, S.TargetId id) (hr₀ : S.Legible w 0) :
    S.BothWrite w (multiplyAccumulator signed comment)
      fun w' p p' => ∃ l, Product.Corresponds S w' l p p' := by
  refine L.writesOperand 0 fun src hsrc => ?_
  refine (halves_lockstep L _).then fun pair pair' hpair => ?_
  obtain ⟨rfl, -⟩ := hpair
  refine (L.readRegisterId _).then fun a a' ha => ?_
  refine (L.read hsrc.source (hsrc.at hr₀)).then fun b b' hb => ?_
  have ha := L.raise (Bool.left_le_or _ (S.level w src)) ha
  have hb := L.raise (Bool.right_le_or (S.levelOf w pair.low) _) hb
  refine (product_lockstep L signed _ ha hb).then fun full full' hfull => ?_
  refine (L.isRegisterTainted _).then fun c c' hc => ?_
  refine (L.isTainted _).then fun d d' hd => ?_
  refine L.bind
    (writeProduct_lockstep L _ (hsrc.at ht) hfull (L.taint_or hc hd)) fun w' hle _ _ _ => ?_
  exact Writes.pure L.toWords
    ⟨_, rfl, L.knows_mono hle hfull, L.taint_or hc hd, L.source_range hsrc.source⟩

theorem mul_lockstep (C : S.Covers) (hx : S.arch.isX86 = true)
    (ht : S.At w 0 fun src => ∀ id ∈ productTargets src.bits, S.TargetId id) (hr₀ : S.Legible w 0) :
    S.BothWrite w mul S.nothing :=
  L.bind (multiplyAccumulator_lockstep L false _ ht hr₀) fun _ _ _ _ hp =>
    writeProductFlags_lockstep L C hx false hp

/-- The third operand counts for no taint, so it has to have one value. -/
theorem factors_lockstep (count : Nat) (hw : S.sure → Formula.WordWidth bits)
    (hfree : S.At w 2 fun op => S.taint (S.level w op) false false)
    (hr : ∀ i ∈ factorPlaces count, S.Legible w i) :
    S.BothRead w (factors count bits) fun p p' => ∃ l,
      S.knows w l p.1 p'.1 ∧ S.knows w l p.2.1 p'.2.1 ∧ S.taint l p.2.2 p'.2.2 := by
  unfold factorPlaces at hr
  refine .ite (fun htwo => ?_) fun htwo => ?_
  · rw [if_pos htwo] at hr
    refine (readPair_lockstep L ⟨hr 0 (by simp), hr 1 (by simp)⟩).bind fun p p' hp => ?_
    exact (Pair.isTainted_lockstep L hp).bind fun b b' hb =>
      .pure ⟨_, hp.leftJoint L, hp.rightJoint L, hb⟩
  · rw [if_neg htwo] at hr
    refine (L.operand 1).bind fun src src' hsrc => ?_
    refine (L.operand 2).bind fun other other' hother => ?_
    obtain rfl := hsrc.eq
    obtain rfl := hother.eq
    refine (L.readSized hw hsrc.source (hsrc.at (hr 1 (by simp)))).bind fun a a' ha => ?_
    refine (L.readSized hw hother.source (hother.at (hr 2 (by simp)))).bind fun b b' hb => ?_
    refine (L.isTainted _).bind fun c c' hc => .pure ?_
    refine ⟨S.level w src || S.level w other, L.raise (Bool.left_le_or _ _) ha,
      L.raise (Bool.right_le_or _ _) hb, ?_⟩
    have htaint := L.taint_or hc (hother.at hfree)
    rwa [Bool.or_false, Bool.or_false] at htaint

theorem multiplyInto_lockstep (count : Nat) (ht : S.At w 0 S.target)
    (hfree : S.At w 2 fun op => S.taint (S.level w op) false false)
    (hr : ∀ i ∈ factorPlaces count, S.Legible w i) :
    S.BothWrite w (multiplyInto count) fun w' p p' => ∃ l, Product.Corresponds S w' l p p' := by
  refine L.writesOperand 0 fun dst hdst => ?_
  have hwidth := L.source_range hdst.source
  refine (factors_lockstep L count hwidth hfree hr).then fun p p' hp => ?_
  obtain ⟨l, ha, hb, hc⟩ := hp
  refine (product_lockstep L true _ ha hb).then fun full full' hfull => ?_
  refine (L.minus fun hs => (hwidth hs).1).then fun top top' htop => ?_
  subst htop
  refine (L.extract _ _ hfull).then fun low low' hlow => ?_
  refine L.bind (L.set _ (hdst.at ht) hlow hc) fun w' hle b b' hb => ?_
  exact Writes.pure L.toWords ⟨l, rfl, L.knows_mono hle hfull, hb, hwidth⟩

theorem imul_lockstep (C : S.Covers) (hx : S.arch.isX86 = true)
    (hacc : ∀ s t, S.frames w s t → s.instruction.operands.length = 1 →
      S.At w 0 fun src => ∀ id ∈ productTargets src.bits, S.TargetId id)
    (ht : ∀ s t, S.frames w s t → s.instruction.operands.length ≠ 1 → S.At w 0 S.target)
    (hfree : S.At w 2 fun op => S.taint (S.level w op) false false)
    (hr : ∀ s t, S.frames w s t → ∀ i ∈ Op.reads s.instruction.operands.length .imul,
      S.Legible w i) : S.BothWrite w imul S.nothing := by
  refine L.operandCount.then fun count count' hcount => ?_
  obtain ⟨rfl, s, t, hst, hlength⟩ := hcount
  have hr := hr s t hst
  rw [hlength, Op.reads] at hr
  by_cases hone : count = 1
  · simp only [hone] at hr ⊢
    exact L.bind (multiplyAccumulator_lockstep L true _
      (hacc s t hst (hlength.trans hone)) (hr 0 (by simp))) fun _ _ _ _ hp =>
      writeProductFlags_lockstep L C hx true hp
  · simp only [hone] at hr ⊢
    exact L.bind
      (multiplyInto_lockstep L count (ht s t hst (hlength ▸ hone)) hfree hr)
      fun _ _ _ _ hp => writeProductFlags_lockstep L C hx true hp

/-! Division. -/

theorem quotient_lockstep (signed : Bool) (bits : Nat) (hf : S.knows w l f f')
    (hg : S.knows w l g g') :
    S.Builds w (quotient signed bits f g) (quotient signed bits f' g') fun p p' =>
      S.knows w l p.1 p'.1 ∧ S.knows w l p.2 p'.2 := by
  refine .ite (fun _ => ?_) fun _ => ?_
  · refine (L.signExtend _ hg).bind fun d d' hd => ?_
    refine (L.arith .sdiv hf hd).bind fun q q' hq => ?_
    exact (L.arith .srem hf hd).bind fun r r' hr => .pure ⟨hq, hr⟩
  · refine (L.zeroExtend _ hg).bind fun d d' hd => ?_
    refine (L.arith .udiv hf hd).bind fun q q' hq => ?_
    exact (L.arith .urem hf hd).bind fun r r' hr => .pure ⟨hq, hr⟩

omit L in
theorem register?_accumulator {arch : Architecture} (h : arch.isX86 = true) :
    ∃ whole low, arch.register? ax = some whole ∧ arch.register? al = some low ∧
      whole.parent = low.parent := by
  cases arch with
  | x86 => exact ⟨_, _, rfl, rfl, rfl⟩
  | x86_64 => exact ⟨_, _, rfl, rfl, rfl⟩
  | aarch64 => cases h

theorem dividend_lockstep {pair : Halves} (hx : S.arch.isX86 = true)
    (hpair : halves? bits = some pair) :
    S.BothRead w (dividend bits pair) (S.knows w (S.levelAny w [pair.low, pair.high])) := by
  refine .ite (fun hbits => ?_) fun _ => ?_
  · subst hbits
    obtain rfl : (⟨al, ah⟩ : Halves) = pair := Option.some.inj hpair
    obtain ⟨whole, low, hwhole, hlow, hparent⟩ := register?_accumulator hx
    have hlevel : S.levelOf w ax = S.levelOf w al := by
      rw [Laws.levelOf_eq hwhole, Laws.levelOf_eq hlow]
      exact L.level_parent (has_of_register? hwhole) (has_of_register? hlow) hparent
    refine (L.readRegisterId ax).mono fun f f' hf => ?_
    rw [hlevel] at hf
    exact L.raise (Simulation.levelOf_le (by simp)) hf
  · refine (L.readAmong [pair.low, pair.high] (by simp)).bind fun h h' hh => ?_
    exact (L.readAmong [pair.low, pair.high] (by simp)).bind fun f f' hf => L.concat hh hf

/-- The bound of a signed quotient is a power of two within the greatest width. -/
theorem quotientBound_lockstep (signed : Bool) (hbits : 8 ≤ bits ∧ bits ≤ 64) :
    S.BothRead w (quotientBound signed bits) (· = ·) := by
  have htop : S.Builds w (minus bits 1) (minus bits 1) fun top _ =>
      top < Word.limit := by
    refine .ite (fun _ => .pure ?_) fun hlt => .fail L.toWords fun _ => by omega
    unfold Word.limit
    omega
  refine .ite (fun _ => ?_) fun _ => .pure rfl
  refine Reads.bind ((L.minus fun _ => by omega).both htop) fun top top' htop => ?_
  obtain ⟨rfl, hlt⟩ := htop
  exact L.shiftLeft _ fun _ => hlt

theorem writeQuotient_lockstep (C : S.Covers) (hx : S.arch.isX86 = true) {q q' : Formula}
    (signed : Bool) {src : Operand} {pair : Halves} (hpair : halves? src.bits = some pair)
    (ht : ∀ id ∈ quotientTargets src.bits, S.TargetId id)
    (hq : S.knows w (S.levelAny w [pair.low, pair.high] || S.level w src) q q')
    (hr : S.knows w (S.levelAny w [pair.low, pair.high] || S.level w src) r r') :
    S.Writes w (writeQuotient signed src pair q r) (writeQuotient signed src pair q' r')
      S.nothing := by
  unfold quotientTargets at ht
  rw [hpair] at ht
  refine (L.anyRegisterTainted _).then fun b b' hb => ?_
  refine (L.isTainted src).then fun c c' hc => ?_
  refine (L.minus fun _ => by have := (halves?_range hpair).1; omega).then fun top top' htop => ?_
  subst htop
  refine (L.extract _ _ hq).then fun low low' hlow => ?_
  refine (L.extract _ _ hr).then fun rest rest' hrest => ?_
  refine L.bind
    (L.writeRegister _ _ (ht pair.low (by simp)) hlow (L.taint_or hb hc)) fun w₁ h₁ _ _ _ => ?_
  have hrest₁ := L.knows_mono h₁ hrest
  refine L.bind
    (L.writeRegister _ _ (ht pair.high (by simp)) hrest₁ (L.taint_or hb hc))
    fun w₂ _ _ _ _ => ?_
  exact Writes.forM L.toWords _ fun id hid w' _ => undefineFlag_lockstep C hx hid

/-- Where the two parts give one result they lead to related frames, and one that
ends in the fault has not left the world. -/
def Guards (S : Simulation) (w : S.World) (fault : Fault) (x y : Step (Option Fault)) : Prop :=
  ∀ s t, S.frames w s t →
    (answer (x s) = answer (y t) →
      Step.Outcomes S.failed (fun _ _ => S.final) (x s) (y t)) ∧
    (answer (x s) = .ok (some fault) → S.frames w (Step.after (x s)) t) ∧
    (answer (y t) = .ok (some fault) → S.frames w s (Step.after (y t)))

/-- The frames of the world can be paired anew. -/
def Exchangeable (S : Simulation) (w : S.World) : Prop :=
  ∀ s t s' t', S.frames w s t → S.frames w s' t' → S.frames w s t'

section

variable {fault : Fault}

omit L in
theorem answer_complete (x : Step Unit) (s : Frame) : answer (complete x s) ≠ .ok (some fault) := by
  unfold complete
  rw [Step.run_bind]
  cases x s with
  | error e s' => simp [answer]
  | ok a s' =>
    simp only
    rw [Step.run_bind]
    cases advance s' with
    | error e s'' => simp [answer]
    | ok b s'' => simp [answer, Pure.pure, EStateM.pure]

theorem Guards.complete (C : S.Covers) {x y : Step Unit} (hx : S.Writes w x y S.nothing) :
    Guards S w fault (complete x) (complete y) := by
  intro s t hst
  refine ⟨(C.complete L hx).meets s t hst, ?_, ?_⟩
  · intro h
    exact absurd h (answer_complete x s)
  · intro h
    exact absurd h (answer_complete y t)

omit L in
theorem outcomes_of_fault {r r' : EStateM.Result Error Frame (Option Fault)}
    (h : answer r = .ok (some fault)) (h' : answer r' = .ok (some fault))
    (hfinal : S.final (Step.after r) (Step.after r')) :
    Step.Outcomes S.failed (fun _ _ => S.final) r r' := by
  cases r with
  | error e s => cases h
  | ok a s =>
    cases r' with
    | error e t => cases h'
    | ok b t => exact hfinal

/-- A decision for the fault by the value of a formula, which may differ in the
two runs. -/
theorem Guards.check {x y : Step (Option Fault)} (p : Nat → Prop) [DecidablePred p]
    (f f' : Formula) (h : Guards S w fault x y) :
    Guards S w fault
      (evaluate f >>= fun n => if p n then pure (some fault) else x)
      (evaluate f' >>= fun n => if p n then pure (some fault) else y) := by
  intro s t hst
  obtain ⟨hmeets, hleft, hright⟩ := h s t hst
  show
    let r := (if p (s.evaluate f) then pure (some fault) else x : Step _) s
    let r' := (if p (t.evaluate f') then pure (some fault) else y : Step _) t
    (answer r = answer r' → Step.Outcomes S.failed (fun _ _ => S.final) r r') ∧
      (answer r = .ok (some fault) → S.frames w (after r) t) ∧
      (answer r' = .ok (some fault) → S.frames w s (after r'))
  by_cases hs : p (s.evaluate f)
  · by_cases ht : p (t.evaluate f')
    · simp only [if_pos hs, if_pos ht]
      exact ⟨fun _ => L.final hst, fun _ => hst, fun _ => hst⟩
    · simp only [if_pos hs, if_neg ht]
      refine ⟨fun heq => ?_, fun _ => hst, hright⟩
      exact outcomes_of_fault rfl heq.symm (L.final (hright heq.symm))
  · by_cases ht : p (t.evaluate f')
    · simp only [if_neg hs, if_pos ht]
      refine ⟨fun heq => ?_, hleft, fun _ => hst⟩
      exact outcomes_of_fault heq rfl (L.final (hleft heq))
    · simp only [if_neg hs, if_neg ht]
      exact ⟨hmeets, hleft, hright⟩

omit L in
theorem Guards.after (hw : Exchangeable S w) {α β : Type} {x : Step α} {y : Step β}
    {k : α → Step (Option Fault)} {k' : β → Step (Option Fault)} {post : α → β → Prop}
    (hx : S.Reads w x y post) (hk : ∀ a b, post a b → Guards S w fault (k a) (k' b)) :
    Guards S w fault (x >>= k) (y >>= k') := by
  intro s t hst
  rw [Step.run_bind, Step.run_bind]
  rcases (hx s t hst).cases with ⟨e, s', t', hs, ht, hxy⟩ | ⟨a, b, s', t', hs, ht, hxy⟩
  · rw [hs, ht]
    refine ⟨fun _ => ⟨rfl, hxy⟩, fun h => ?_, fun h => ?_⟩
    · cases h
    · cases h
  · rw [hs, ht]
    obtain ⟨hmeets, hleft, hright⟩ := hk a b hxy.2 s' t' hxy.1
    refine ⟨hmeets, fun h => ?_, fun h => ?_⟩
    · exact hw _ _ _ _ (hleft h) hst
    · exact hw _ _ _ _ hst (hright h)

end

section

variable (C : S.Covers) (hx : S.arch.isX86 = true) (signed : Bool)
  (ht : S.At w 0 fun src => ∀ id ∈ quotientTargets src.bits, S.TargetId id)
  (hr₀ : S.Legible w 0)

include C hx ht hr₀

theorem divide_meets (hw : Exchangeable S w) : S.Meets w (divide signed) (divide signed) := by
  have hguards : Guards S w .divideError (divide signed) (divide signed) := by
    refine Guards.after hw (L.operand 0) fun src src' hsrc => ?_
    obtain rfl := hsrc.eq
    refine Guards.after hw (halves_lockstep L _) fun pair pair' hpair => ?_
    obtain ⟨rfl, hpair⟩ := hpair
    refine Guards.after hw (L.read hsrc.source (hsrc.at hr₀)) fun d d' hd => ?_
    have hd := L.raise (Bool.right_le_or (S.levelAny w [pair.low, pair.high]) _) hd
    refine Guards.check L (fun n => n = 0) d d' ?_
    refine Guards.after hw (dividend_lockstep L hx hpair) fun n n' hn => ?_
    have hn := L.raise (Bool.left_le_or _ (S.level w src)) hn
    refine Guards.after hw (quotient_lockstep L signed _ hn hd) fun p p' hp => ?_
    refine Guards.after hw (quotientBound_lockstep L signed (halves?_range hpair))
      fun bound bound' hbound => ?_
    subst hbound
    refine Guards.check L (fun n => (!fits signed src.bits bound n) = true) p.1 p'.1 ?_
    exact Guards.complete L C (writeQuotient_lockstep L C hx signed hpair (hsrc.at ht) hp.1 hp.2)
  exact fun s t hst => (hguards s t hst).1

/-- Where every operand has one value the two runs decide alike. -/
theorem divide_ends (hlevel : ∀ op, S.level w op = false) : S.BothEnd w (divide signed) := by
  have hany : ∀ ids, S.levelAny w ids = false := by
    intro ids
    rw [Simulation.levelAny, List.any_eq_false]
    intro id _
    unfold Simulation.levelOf
    cases S.arch.register? id with
    | none => simp
    | some reg => simp [hlevel]
  refine L.endsOperand 0 fun src hsrc => ?_
  refine Ends.after (halves_lockstep L _) fun pair pair' hpair => ?_
  obtain ⟨rfl, hpair⟩ := hpair
  refine Ends.after (L.read hsrc.source (hsrc.at hr₀)) fun d d' hd => ?_
  rw [hlevel] at hd
  refine Ends.after (L.evaluated hd) fun n n' hn => ?_
  subst hn
  by_cases hzero : n = 0
  · simp only [if_pos hzero]
    exact Ends.pure L _
  · simp only [if_neg hzero]
    refine Ends.after (dividend_lockstep L hx hpair) fun f f' hf => ?_
    rw [hany] at hf
    refine Ends.after (quotient_lockstep L signed _ hf hd) fun p p' hp => ?_
    refine Ends.after (quotientBound_lockstep L signed (halves?_range hpair))
      fun bound bound' hbound => ?_
    subst hbound
    refine Ends.after (L.evaluated hp.1) fun m m' hm => ?_
    subst hm
    by_cases hfits : (!fits signed src.bits bound m) = true
    · simp only [if_pos hfits]
      exact Ends.pure L _
    · simp only [if_neg hfits]
      refine C.complete L (writeQuotient_lockstep L C hx signed hpair (hsrc.at ht) ?_ ?_)
      · exact L.raise (Bool.false_le _) hp.1
      · exact L.raise (Bool.false_le _) hp.2

end

/-! Shifts and rotations. -/

theorem shiftCount_lockstep (hw : S.sure → Formula.WordWidth bits) (hr₁ : S.Legible w 1) :
    S.BothRead w (shiftCount bits) fun p p' => S.Tagged w p p' ∧ p.1.width = bits := by
  have hread : ∀ src : Operand, S.source src → S.legible w src →
      S.BothRead w (do
          let value ← read src
          let count ← resize value bits
          let mask ← constant (countMask bits) bits
          let masked ← and count mask
          return (masked, ← isTainted src)) fun p p' => S.Tagged w p p' ∧ p.1.width = bits := by
    intro src hsrc hlegible
    refine (L.read hsrc hlegible).bind fun f f' hf => ?_
    refine Reads.bind ((L.resize _ hf).both (L.resize_width _ hf)) fun c c' hc => ?_
    refine Reads.bind (L.constant _ _ hw) fun m m' hm => ?_
    have hm' := L.raise (Bool.false_le (S.level w src)) hm.1
    refine Reads.bind (L.call (.arith hc.1 hm')) fun r r' hr => ?_
    have hwidth : r.width = bits := hr.2.1.trans (hc.2 hm.2.2)
    exact (L.isTainted src).bind fun b b' hb => .pure ⟨⟨_, hr.1, hb⟩, hwidth⟩
  refine (L.operand? 1).bind fun op op' hop => ?_
  cases hop with
  | none =>
    exact Reads.bind (L.constant _ _ hw) fun f f' hf => .pure ⟨⟨_, hf.1, L.taint_false⟩, hf.2.1⟩
  | @some op op' hop =>
    obtain rfl := hop.eq
    cases op with
    | immediate imm =>
      exact Reads.bind (L.constant _ _ hw) fun f f' hf => .pure ⟨⟨_, hf.1, L.taint_false⟩, hf.2.1⟩
    | register reg => exact hread _ hop.source (hop.at hr₁)
    | memory access => exact hread _ hop.source (hop.at hr₁)

theorem Shift.lastOut_lockstep (kind : Shift) {c c' one one' : Formula} (hf : S.knows w l f f')
    (hc : S.knows w l c c') (hone : S.knows w l one one') :
    S.Builds w (kind.lastOut f c one) (kind.lastOut f' c' one') (S.knows w l) := by
  cases kind with
  | left =>
    unfold lastOut
    rw [← L.width_eq hf]
    refine (L.word l _ (L.width_range hf)).bind fun n n' hn => ?_
    exact (L.arith .sub hn hc).bind fun r r' hr => L.arith .lshr hf hr
  | logicalRight => exact (L.arith .sub hc hone).bind fun r r' hr => L.arith .lshr hf hr
  | arithmeticRight => exact (L.arith .sub hc hone).bind fun r r' hr => L.arith .ashr hf hr

theorem Shift.overflow_lockstep (kind : Shift) (hf : S.knows w l f f') (hw : S.sure → 2 ≤ f.width) :
    S.Builds w (kind.overflow f) (kind.overflow f') (S.knows w l) := by
  cases kind with
  | left =>
    unfold overflow
    rw [← L.width_eq hf]
    refine (L.sign hf).bind fun top top' htop => ?_
    refine (L.minus hw).bind fun below below' hbelow => ?_
    subst hbelow
    exact (L.extract _ _ hf).bind fun next next' hnext => L.arith .xor htop hnext
  | logicalRight => exact L.sign hf
  | arithmeticRight => exact L.flag l false

/-- The old value of a flag stays in a shift by zero whatever its taint. -/
theorem readOld_lockstep (id : Nat) : S.BothRead w (readRegisterId id) (S.knows w true) :=
  (L.readRegisterId id).mono fun _ _ h => L.raise (Bool.le_true _) h

/-- The destination of a shift is tainted if it was or its count is; an immediate cannot be
written. -/
theorem assignShifted_lockstep (hflat : S.Flat) {dst : Operand} {c c' : Formula × Bool}
    (comment : String) (ht : S.target dst) (hc : S.Tagged w c c') (hr : S.knows w true r r') :
    S.Writes w
      (assign dst r comment do
        let dstTainted ← isTainted dst
        setTaint dst (dstTainted || c.2))
      (assign dst r' comment do
        let dstTainted ← isTainted dst
        setTaint dst (dstTainted || c'.2))
      fun _ b b' => S.taint true b b' ∧ ∀ imm, dst ≠ .immediate imm := by
  obtain ⟨l, -, hb⟩ := hc
  have hassign := L.assign comment
    (fun p => p.taint.isOperand (p.modes.isOn .taintThroughPointers) dst || c.2)
    (fun p => p.taint.isOperand (p.modes.isOn .taintThroughPointers) dst || c'.2)
    (fun _ => rfl) (fun _ => rfl) ht hr
    fun _ _ hst => hflat (L.taint_or (L.isOperand hst dst) hb)
  cases dst with
  | immediate imm =>
    have hrefuse : S.Reads w (write (.immediate imm) r comment)
        (write (.immediate imm) r' comment) fun _ _ => False := L.refuse fun _ => rfl
    exact hrefuse.then fun _ _ h => h.elim
  | _ => exact hassign.mono fun _ _ _ h => ⟨h, by simp⟩

omit L in
/-- The operand is no flag. -/
def NoFlag (op : Operand) : Prop := ∀ reg, op = .register reg → reg.bits ≠ 1

omit L in
/-- What is shifted has two bits at least: it is no flag, and memory has whole bytes. -/
theorem NoFlag.two_le_bits {dst : Operand} (h : NoFlag dst) (hpos : 1 ≤ dst.bits)
    (himm : ∀ imm, dst ≠ .immediate imm)
    (hmem : ∀ access, dst = .memory access → 1 ≤ access.bytes) : 2 ≤ dst.bits := by
  cases dst with
  | immediate imm => exact absurd rfl (himm imm)
  | register reg =>
    have hne := h reg rfl
    change 1 ≤ reg.bits at hpos
    show 2 ≤ reg.bits
    omega
  | memory access =>
    have hbytes := hmem access rfl
    show 2 ≤ access.bits
    unfold Access.bytes at hbytes
    omega

theorem shift_lockstep (C : S.Covers) (hx : S.arch.isX86 = true) (hflat : S.Flat) (kind : Shift)
    (ht : S.At w 0 S.target) (hr : LegiblePair S w) (hfit : S.sure → S.At w 0 NoFlag) :
    S.BothWrite w (shift kind) S.nothing := by
  refine L.writesOperand 0 fun dst hdst => ?_
  have hbits := L.source_range hdst.source
  have hlegible := hdst.at hr.1
  refine ((L.read hdst.source hlegible).both (L.read_bytes hdst.source hlegible)).then
    fun f f' hf => ?_
  obtain ⟨hf, hbytes⟩ := hf
  have hf := L.raise (Bool.le_true _) hf
  refine (shiftCount_lockstep L hbits hr.2).then fun c c' hc => ?_
  obtain ⟨hc, hwidth⟩ := hc
  have hcount := hc.knows_true L.toWords
  refine (L.call (.arith hf hcount)).then fun r r' hr => ?_
  obtain ⟨hr, -, hlawful⟩ := hr
  refine (readOld_lockstep L cf).then fun oldC oldC' hoC => ?_
  refine (readOld_lockstep L of).then fun oldO oldO' hoO => ?_
  refine (readOld_lockstep L pf).then fun oldP oldP' hoP => ?_
  refine (readOld_lockstep L sf).then fun oldS oldS' hoS => ?_
  refine (readOld_lockstep L zf).then fun oldZ oldZ' hoZ => ?_
  refine L.bind
    (assignShifted_lockstep L hflat kind.comment (hdst.at ht) hc hr) fun w₁ h₁ b b' hb => ?_
  obtain ⟨hb, himm⟩ := hb
  have htwo : S.sure → 2 ≤ f.width := fun hs => by
    rw [(hlawful hs).1, hwidth]
    exact NoFlag.two_le_bits (hdst.at (hfit hs)) (hbits hs).1 himm (hbytes hs)
  -- every flag is a choice between its new and its old value, read before the write
  have hf₁ := L.knows_mono h₁ hf
  have hc₁ := L.knows_mono h₁ hcount
  have hr₁ := L.knows_mono h₁ hr
  refine (L.word true _ hbits).then fun one one' hone => ?_
  refine ((L.isZero hc₁).both (L.isZero_width hc₁)).then fun u u' hu => ?_
  obtain ⟨hu, hbit⟩ := hu
  refine (L.compare .eq hc₁ hone).then fun single single' hsingle => ?_
  refine (kind.lastOut_lockstep L hf₁ hc₁ hone).then fun out out' hout => ?_
  refine (L.extract _ _ hout).then fun nC nC' hnC => ?_
  refine (L.ite hu (L.knows_mono h₁ hoC) hnC).then fun carry carry' hcarry => ?_
  refine (kind.overflow_lockstep L hf₁ htwo).then fun nO nO' hnO => ?_
  refine (L.ite hsingle hnO (L.knows_mono h₁ hoO)).then fun o o' ho => ?_
  refine (parity_lockstep L hr₁).then fun nP nP' hnP => ?_
  refine (L.ite hu (L.knows_mono h₁ hoP) hnP).then fun even even' heven => ?_
  refine (L.sign hr₁).then fun nS nS' hnS => ?_
  refine (L.ite hu (L.knows_mono h₁ hoS) hnS).then fun sign sign' hsign => ?_
  refine (L.isZero hr₁).then fun nZ nZ' hnZ => ?_
  refine (L.ite hu (L.knows_mono h₁ hoZ) hnZ).then fun zero zero' hzero => ?_
  refine L.bind (C.undefineUnless hflat (hasRoot_flag hx (by decide)) hu hbit) fun w₂ h₂ _ _ _ => ?_
  refine L.bind (writeFlag_lockstep L _ (L.knows_mono h₂ hcarry) hb) fun w₃ h₃ _ _ _ => ?_
  have h₂₃ := L.trans h₂ h₃
  refine L.bind (writeFlag_lockstep L _ (L.knows_mono h₂₃ ho) hb) fun w₄ h₄ _ _ _ => ?_
  have h₂₄ := L.trans h₂₃ h₄
  refine L.bind (writeFlag_lockstep L _ (L.knows_mono h₂₄ heven) hb) fun w₅ h₅ _ _ _ => ?_
  have h₂₅ := L.trans h₂₄ h₅
  refine L.bind (writeFlag_lockstep L _ (L.knows_mono h₂₅ hsign) hb) fun w₆ h₆ _ _ _ => ?_
  exact writeFlag_lockstep L _ (L.knows_mono (L.trans h₂₅ h₆) hzero) hb

theorem rotationFlags_lockstep (left : Bool) (hf : S.knows w l f f') (hw : S.sure → 2 ≤ f.width) :
    S.Builds w (rotationFlags left f) (rotationFlags left f') fun p p' =>
      S.knows w l p.1 p'.1 ∧ S.knows w l p.2 p'.2 := by
  unfold rotationFlags
  rw [← L.width_eq hf]
  refine .ite (fun _ => ?_) fun _ => ?_
  · refine (L.extract _ _ hf).bind fun low low' hlow => ?_
    refine (L.sign hf).bind fun high high' hhigh => ?_
    exact (L.arith .xor hhigh hlow).bind fun o o' ho => .pure ⟨hlow, ho⟩
  · refine (L.sign hf).bind fun high high' hhigh => ?_
    refine (L.minus hw).bind fun below below' hbelow => ?_
    subst hbelow
    refine (L.extract _ _ hf).bind fun next next' hnext => ?_
    exact (L.arith .xor hhigh hnext).bind fun o o' ho => .pure ⟨hhigh, ho⟩

/-- The count for the first operand of the world's frames corresponds. -/
def SameCount (S : Simulation) (w : S.World) : Prop :=
  S.At w 0 fun dst =>
    S.Reads w (rotationCount dst.bits) (rotationCount dst.bits)
      fun p p' => S.Tagged w p p' ∧ (S.sure → p.1.width = dst.bits)

/-- Where every formula has one value in both runs and one mode rules them, the counts
correspond. -/
theorem SameCount.of_value (hr₁ : S.Legible w 1)
    (hmode : S.BothRead w (isOn .symbolizeIndexRotation)
      (· = ·)) (hvalue : ∀ {l f f'}, S.knows w l f f' → S.knows w false f f') (hflat : S.Flat) :
    SameCount S w := by
  intro s t dst hst hdst
  have hbits := L.source_range ((L.code hst).sources dst (List.mem_of_getElem? hdst))
  refine (shiftCount_lockstep L hbits hr₁).bind fun p p' hp => ?_
  refine hmode.bind fun on on' hon => ?_
  subst hon
  cases on with
  | true => exact .pure ⟨hp.1, fun _ => hp.2⟩
  | false =>
    obtain ⟨⟨l, hf, htaint⟩, -⟩ := hp
    refine (L.evaluated (hvalue hf)).bind fun n n' hn => ?_
    subst hn
    exact (L.constant _ _ hbits).bind fun c c' hc =>
      .pure ⟨⟨false, hc.1, hflat htaint⟩, fun _ => hc.2.1⟩

theorem rotate_lockstep (hflat : S.Flat) (left : Bool) (ht : S.At w 0 S.target)
    (hr₀ : S.Legible w 0) (hcount : SameCount S w) (hfit : S.sure → S.At w 0 NoFlag) :
    S.BothWrite w (rotate left) S.nothing := by
  refine L.writesOperand 0 fun dst hdst => ?_
  have hbits := L.source_range hdst.source
  have hlegible := hdst.at hr₀
  refine ((L.read hdst.source hlegible).both (L.read_bytes hdst.source hlegible)).then
    fun f f' hf => ?_
  obtain ⟨hf, hbytes⟩ := hf
  refine (hdst.at hcount).then fun c c' hc => ?_
  obtain ⟨hc, hwidth⟩ := hc
  have hc' := hc.knows_true L.toWords
  refine (L.call (.arith (L.raise (Bool.le_true _) hf) hc')).then fun r r' hr => ?_
  obtain ⟨hr, hkept, hlawful⟩ := hr
  refine (readOld_lockstep L cf).then fun oldC oldC' hoC => ?_
  refine (readOld_lockstep L of).then fun oldO oldO' hoO => ?_
  refine L.bind (assignShifted_lockstep L hflat _ (hdst.at ht) hc hr) fun w₁ h₁ b b' hb => ?_
  obtain ⟨hb, himm⟩ := hb
  have htwo : S.sure → 2 ≤ r.width := fun hs => by
    rw [hkept]
    change 2 ≤ f.width
    rw [(hlawful hs).1, hwidth hs]
    exact NoFlag.two_le_bits (hdst.at (hfit hs)) (hbits hs).1 himm (hbytes hs)
  have hc₁ := L.knows_mono h₁ hc'
  refine (L.isZero hc₁).then fun u u' hu => ?_
  refine (L.word true _ hbits).then fun one one' hone => ?_
  refine (L.compare .eq hc₁ hone).then fun single single' hsingle => ?_
  refine (rotationFlags_lockstep L left (L.knows_mono h₁ hr) htwo).then fun p p' hp => ?_
  refine (L.ite hu (L.knows_mono h₁ hoC) hp.1).then fun carry carry' hcarry => ?_
  refine (L.ite hsingle hp.2 (L.knows_mono h₁ hoO)).then fun o o' ho => ?_
  refine L.bind (writeFlag_lockstep L _ hcarry hb) fun w₂ h₂ _ _ _ => ?_
  exact writeFlag_lockstep L _ (L.knows_mono h₂ ho) hb

/-! The stack and the jumps. -/

omit L in
/-- The value that the stack pointer moves to. -/
def movedPointer (sp : Register) (delta : Int) : Step Formula := do
  let old ← readRegister sp
  let offset ← constant (Word.wrap sp.bits delta) sp.bits
  Build.add old offset

omit L in
theorem moveStack_eq (delta : Int) : moveStack delta = (do
    let arch ← Step.arch
    let new ← movedPointer arch.stackPointer delta
    let tainted ← isRegisterTainted arch.stackPointer.id
    writeRegister arch.stackPointer.id new "Stack alignment" tainted
    return new) := by
  unfold moveStack movedPointer
  simp only [bind_assoc]

theorem movedPointer_lockstep (delta : Int)
    (hread : S.BothRead w (readRegister S.arch.stackPointer) (S.knows w l)) :
    S.BothRead w (movedPointer S.arch.stackPointer delta) (S.knows w l) := by
  refine hread.bind fun old old' hold => ?_
  exact Reads.bind (L.word l _ fun _ => S.arch.stackPointer_has.wordWidth)
    fun offset offset' hoffset => L.arith .add hold hoffset

/-- The stack pointer moves in both runs, and keeps its taint. What is known of the value
that it moves to is known afterwards. -/
theorem moveStack_lockstep (delta : Int) (new : S.World → Formula → Formula → Prop)
    (hlevel : l ≤ S.level w (.register S.arch.stackPointer))
    (hread : S.BothRead w (movedPointer S.arch.stackPointer delta)
      fun f f' => S.knows w l f f' ∧ new w f f')
    (hmono : ∀ {w' f f'}, S.le w w' → new w f f' → new w' f f') :
    S.BothWrite w (moveStack delta) fun w' f f' =>
      new w' f f' ∧ ∀ op, S.level w' op = S.level w op := by
  have hhas := S.arch.stackPointer_has
  have ⟨hroot, hzero⟩ : S.arch.stackPointer.isRoot = true ∧
      S.arch.isZeroRegister S.arch.stackPointer = false := by cases S.arch <;> exact ⟨rfl, rfl⟩
  rw [moveStack_eq]
  refine L.archReads.then fun a b hab => ?_
  obtain ⟨rfl, rfl⟩ := hab
  refine hread.then fun f f' hf => ?_
  have htaint : S.BothRead w (isRegisterTainted S.arch.stackPointer.id) fun b b' =>
      ∃ s t, S.frames w s t ∧ b = s.taint.isRegister S.arch.stackPointer ∧
        b' = t.taint.isRegister S.arch.stackPointer := by
    refine (L.register _).bind fun reg reg' hreg => ?_
    obtain ⟨rfl, hreg⟩ := hreg
    obtain rfl : S.arch.stackPointer = reg := Option.some.inj (hhas.symm.trans hreg)
    exact .look fun s t hst => ⟨s, t, hst, rfl, rfl⟩
  refine htaint.then fun b b' hb => ?_
  have hwrite : S.Writes w
      (writeRegister S.arch.stackPointer.id f "Stack alignment" b)
      (writeRegister S.arch.stackPointer.id f' "Stack alignment" b')
      fun w' _ _ => ∀ op, S.level w' op = S.level w op := by
    refine (L.register _).then fun reg reg' hreg => ?_
    obtain ⟨rfl, hreg⟩ := hreg
    obtain rfl : S.arch.stackPointer = reg := Option.some.inj (hhas.symm.trans hreg)
    exact L.bind (L.restore _ hhas hroot hzero (L.raise hlevel hf.1) hb)
      fun w' _ _ _ hlevels => Writes.pure L.toWords hlevels
  exact L.bind hwrite fun w' hle _ _ hlevels =>
    Writes.pure L.toWords ⟨hmono hle hf.2, hlevels⟩

theorem shiftStack_lockstep (delta : Int) :
    S.BothWrite w (discard (moveStack delta)) S.nothing := by
  have hread := movedPointer_lockstep L (w := w) delta
    (L.readRegister (L.source_register S.arch.stackPointer_has))
  refine Laws.dropAnswer L.toWords (moveStack_lockstep L delta S.nothing
    (le_refl _) (hread.mono fun _ _ hf => ⟨hf, trivial⟩) fun _ h => h)

omit L in
/-- A place on the stack. -/
def slotAt (S : Simulation) (address : Address) (bits : Nat) : Operand :=
  .memory ((Access.fixed address bits).withBase S.arch.stackPointer)

theorem stackSlot_lockstep (bits : Nat) (hf : S.knows w false f f') :
    S.Reads w (stackSlot f bits) (stackSlot f' bits) fun op op' => op = op' ∧
      ∃ address, op = slotAt S address bits := by
  refine (L.evaluated hf).bind fun n n' hn => ?_
  subst hn
  refine L.archReads.bind fun a b hab => ?_
  obtain ⟨rfl, rfl⟩ := hab
  exact .pure ⟨rfl, _, rfl⟩

omit L in
/-- Both runs find one place at the stack pointer, which may be read. -/
def TopLegible (S : Simulation) (w : S.World) (bits : Nat) : Prop :=
  S.Reads w (readRegister S.arch.stackPointer >>= fun pointer => stackSlot pointer bits)
    (readRegister S.arch.stackPointer >>= fun pointer => stackSlot pointer bits)
    fun slot slot' => slot = slot' ∧ ∃ address, slot = slotAt S address bits ∧ S.legible w slot

omit L in
/-- Both runs make room for one place below the stack pointer, which may be written. -/
def RoomBelow (S : Simulation) (w : S.World) (bits : Nat) : Prop :=
  S.Writes w (moveStack (-stackBytes bits) >>= fun pointer => stackSlot pointer bits)
    (moveStack (-stackBytes bits) >>= fun pointer => stackSlot pointer bits)
    fun w' slot slot' => slot = slot' ∧ S.target slot ∧ ∀ op, S.level w' op = S.level w op

omit L in
/-- The width of what a push of an operand puts on the stack. -/
def pushedBits (arch : Architecture) : Operand → Nat
  | .immediate _ => arch.addressWidth
  | src => src.bits

omit L in
/-- A return drops less than a quarter of the address space. -/
def ShortReturn (op : Operand) : Prop := ∀ imm, op = .immediate imm → imm.value.toNat < 2 ^ 62

omit L in
/-- An operation can use the stack as far as it does. -/
structure StackOpen (S : Simulation) (w : S.World) (op : Op) : Prop where
  push : op = .push → S.At w 0 fun src => RoomBelow S w (pushedBits S.arch src)
  pop : op = .pop → S.At w 0 fun dst => TopLegible S w dst.bits
  call : op = .call → RoomBelow S w S.arch.addressWidth
  ret : op = .ret → TopLegible S w S.arch.addressWidth
  short : op = .ret → S.sure → S.At w 0 ShortReturn

/-- Where the two runs read one value of the stack pointer, and the stack may be read
and written wherever that is, every operation can use it. -/
theorem StackOpen.of_pointer
    (hpointer : S.BothRead w (readRegister S.arch.stackPointer) (S.knows w false))
    (hlegible : ∀ address bits, (S.sure → Formula.WordWidth bits) →
      S.legible w (slotAt S address bits))
    (hword : ∀ address, S.target (slotAt S address S.arch.addressWidth))
    (hoperand : ∀ src address, S.source src → src.immediate? = none →
      S.target (slotAt S address src.bits)) (hshort : op = .ret → S.sure → S.At w 0 ShortReturn) :
    StackOpen S w op := by
  have htop : ∀ bits, (S.sure → Formula.WordWidth bits) → TopLegible S w bits := by
    intro bits hw
    refine hpointer.bind fun f f' hf => (stackSlot_lockstep L bits hf).mono fun slot slot' h => ?_
    obtain ⟨rfl, address, rfl⟩ := h
    exact ⟨rfl, address, rfl, hlegible address bits hw⟩
  have hroom : ∀ bits, (∀ address, S.target (slotAt S address bits)) → RoomBelow S w bits := by
    intro bits ht
    have hmoved := movedPointer_lockstep L (-stackBytes bits) hpointer
    refine L.bind (moveStack_lockstep L _ (fun w => S.knows w false)
      (Bool.false_le _) (hmoved.mono fun _ _ hf => ⟨hf, hf⟩) L.knows_mono) fun w' hle f f' hf => ?_
    refine Reads.writes L.toWords (stackSlot_lockstep L bits hf.1) fun slot slot' h => ?_
    obtain ⟨rfl, address, rfl⟩ := h
    exact ⟨rfl, ht address, hf.2⟩
  have hsource : ∀ {i s t src}, S.frames w s t → s.instruction.operands[i]? = some src →
      S.source src := fun hst hsrc => (L.code hst).sources _ (List.mem_of_getElem? hsrc)
  refine ⟨fun _ s t src hst hsrc => hroom _ ?_,
    fun _ _ _ dst hst hdst => htop _ (L.source_range (hsource hst hdst)), fun _ => hroom _ hword,
    fun _ => htop _ fun _ => S.arch.addressWidth_range, hshort⟩
  have hsource := hsource hst hsrc
  cases src with
  | immediate imm => exact hword
  | register reg => exact fun address => hoperand _ address hsource rfl
  | memory access => exact fun address => hoperand _ address hsource rfl

theorem push_lockstep (hr₀ : S.Legible w 0)
    (hroom : S.At w 0 fun src => RoomBelow S w (pushedBits S.arch src)) :
    S.BothWrite w push S.nothing := by
  refine L.writesOperand 0 fun src hsrc => ?_
  refine L.archReads.then fun a b hab => ?_
  obtain ⟨rfl, rfl⟩ := hab
  have hroom := hsrc.at hroom
  have hrest : ∀ bits, RoomBelow S w bits → ∀ f f', S.knows w (S.level w src) f f' → S.Writes w
      (moveStack (-stackBytes bits) >>= fun p => stackSlot p bits >>= fun dst =>
        discard (assign dst f "PUSH operation" (assignTaint dst src)))
      (moveStack (-stackBytes bits) >>= fun p => stackSlot p bits >>= fun dst =>
        discard (assign dst f' "PUSH operation" (assignTaint dst src)))
      S.nothing := by
    intro bits hroom f f' hf
    simp only [← bind_assoc]
    refine L.bind hroom fun w' hle dst dst' hdst => ?_
    obtain ⟨rfl, htarget, hlevels⟩ := hdst
    -- the source has the level that it had when it was read
    rw [← hlevels] at hf
    exact L.move _ htarget (L.knows_mono hle hf)
  cases src with
  | immediate imm =>
    exact (L.readSized (fun _ => S.arch.addressWidth_range) hsrc.source (hsrc.at hr₀)).then
      (hrest _ hroom)
  | register reg =>
    exact (L.readSized (L.source_range hsrc.source) hsrc.source (hsrc.at hr₀)).then (hrest _ hroom)
  | memory access =>
    exact (L.readSized (L.source_range hsrc.source) hsrc.source (hsrc.at hr₀)).then (hrest _ hroom)

theorem pop_lockstep (htop : S.At w 0 fun dst => TopLegible S w dst.bits)
    (ht : S.At w 0 S.target) : S.BothWrite w pop S.nothing := by
  refine L.writesOperand 0 fun dst hdst => ?_
  refine L.archReads.then fun a b hab => ?_
  obtain ⟨rfl, rfl⟩ := hab
  rw [← bind_assoc]
  refine (hdst.at htop).then fun src src' hsrc => ?_
  obtain ⟨rfl, address, rfl, hlegible⟩ := hsrc
  refine (L.load hlegible).then fun f f' hf => ?_
  refine L.bind (L.move _ (hdst.at ht) hf.1) fun w' _ _ _ _ => ?_
  by_cases hmoves : dst.register?.map Register.parent ≠ some S.arch.stackPointer.parent
  · simp only [if_pos hmoves]
    exact shiftStack_lockstep L _
  · simp only [if_neg hmoves]
    exact Writes.pure L.toWords trivial

theorem call_ends (C : S.Covers) (hr₀ : S.Legible w 0)
    (hroom : RoomBelow S w S.arch.addressWidth) : S.BothEnd w call := by
  refine Ends.after L.archReads fun a b hab => ?_
  obtain ⟨rfl, rfl⟩ := hab
  refine L.endsOperand 0 fun src hsrc => ?_
  have hwidth := fun (_ : S.sure) => S.arch.addressWidth_range
  refine Ends.after (L.readSized hwidth hsrc.source (hsrc.at hr₀)) fun f f' hf => ?_
  refine Ends.after (L.isTainted src) fun b b' hb => ?_
  rw [← bind_assoc, ← bind_assoc]
  refine Ends.bind hroom fun w₁ h₁ slot slot' hslot => ?_
  obtain ⟨rfl, htarget, -⟩ := hslot
  refine Ends.after L.fallThrough fun next next' hnext => ?_
  subst hnext
  refine Ends.after (L.constant _ _ hwidth) fun n n' hn => ?_
  refine Ends.bind (L.put _ htarget hn.1 L.taint_false) fun w₂ h₂ _ _ _ => ?_
  exact C.jump L false (L.knows_mono (L.trans h₁ h₂) hf) hb

omit L in
theorem toInt_of_lt {value : UInt64} (h : value.toNat < 2 ^ 62) :
    value.toInt64.toInt = value.toNat := by
  show value.toBitVec.toInt = _
  rw [BitVec.toInt_eq_toNat_of_lt]
  · rfl
  · show 2 * value.toNat < 2 ^ 64
    omega

theorem ret_ends (C : S.Covers) (htop : TopLegible S w S.arch.addressWidth)
    (hshort : S.sure → S.At w 0 ShortReturn) : S.BothEnd w ret := by
  refine Ends.after L.archReads fun a b hab => ?_
  obtain ⟨rfl, rfl⟩ := hab
  rw [← bind_assoc]
  refine Ends.after htop fun slot slot' hslot => ?_
  obtain ⟨rfl, address, rfl, hlegible⟩ := hslot
  refine Ends.after (L.load hlegible) fun f f' hf => ?_
  refine Ends.after (L.isTainted _) fun b b' hb => ?_
  have hreturn : ∀ extra : Int, (S.sure → 0 ≤ extra ∧ extra < 2 ^ 62) → S.Ends w
      (signedSum (stackBytes S.arch.addressWidth) extra >>= fun delta =>
        discard (moveStack delta) >>= fun _ => Step.jump f b false)
      (signedSum (stackBytes S.arch.addressWidth) extra >>= fun delta =>
        discard (moveStack delta) >>= fun _ => Step.jump f' b' false) := by
    intro extra hextra
    refine Ends.after (L.signedSum fun hs => ?_) fun delta delta' hdelta => ?_
    · have hstack : stackBytes S.arch.addressWidth = 4 ∨ stackBytes S.arch.addressWidth = 8 := by
        cases S.arch <;> decide
      have hmin : Int64.minValue.toInt = -2 ^ 63 := by decide
      have hmax : Int64.maxValue.toInt = 2 ^ 63 - 1 := by decide
      have hextra := hextra hs
      omega
    · subst hdelta
      refine Ends.bind (shiftStack_lockstep L delta) fun w' hle _ _ _ => ?_
      exact C.jump L false (L.knows_mono hle hf.1) hb
  refine Ends.after (L.operand? 0) fun op op' hop => ?_
  cases hop with
  | none => exact hreturn _ fun _ => by decide
  | @some op op' hop =>
    obtain rfl := hop.eq
    cases op with
    | immediate imm =>
      refine hreturn _ fun hs => ?_
      have hlt := hop.at (hshort hs) imm rfl
      show 0 ≤ imm.value.toInt64.toInt ∧ imm.value.toInt64.toInt < 2 ^ 62
      rw [toInt_of_lt hlt]
      omega
    | register reg => exact hreturn _ fun _ => by simp
    | memory access => exact hreturn _ fun _ => by simp

theorem jump_ends (C : S.Covers) (hr₀ : S.Legible w 0) : S.BothEnd w jump := by
  refine L.endsOperand 0 fun src hsrc => ?_
  refine Ends.after L.archReads fun a b hab => ?_
  obtain ⟨rfl, rfl⟩ := hab
  refine Ends.after (L.readSized (fun _ => S.arch.addressWidth_range) hsrc.source (hsrc.at hr₀))
    fun f f' hf => ?_
  exact Ends.after (L.isTainted src) fun b b' hb => C.jump L false hf hb

theorem jumpIf_ends (C : S.Covers) (hr₀ : S.Legible w 0) (c : Condition) :
    S.BothEnd w (jumpIf c) := by
  refine Ends.after L.archReads fun a b hab => ?_
  obtain ⟨rfl, rfl⟩ := hab
  refine Ends.after (c.readLevel_lockstep L) fun h h' hh => ?_
  refine L.endsOperand 0 fun src hsrc => ?_
  have hwidth := fun (_ : S.sure) => S.arch.addressWidth_range
  refine Ends.after (L.readSized hwidth hsrc.source (hsrc.at hr₀)) fun f f' hf => ?_
  refine Ends.after (L.choose hwidth (L.raise (Bool.left_le_or _ (S.level w src)) hh.1)
    (L.raise (Bool.right_le_or _ _) hf)) fun g g' hg => ?_
  refine Ends.after (L.isTainted src) fun b b' hb => ?_
  exact C.jump L true hg (L.taint_or hh.2 hb)

/-! Every operation. -/

/-- Whether an operation looks at the value of the stack pointer. -/
def Op.usesStack : Op → Bool
  | push | pop | call | ret => true
  | _ => false

/-- Whether an operation looks at the value of a count of rotation. -/
def Op.rotates : Op → Bool
  | rotate _ => true
  | _ => false

/-- Whether an operation moves bits by a count. -/
def Op.shifts : Op → Bool
  | shift _ | rotate _ => true
  | _ => false

/-- Whether an operation mixes the bytes of an operand that keeps its taint. -/
def Op.mixes : Op → Bool
  | inc | dec | neg | bswap => true
  | _ => false

/-- Whether an operation leaves the taint of the operand that it writes. -/
def Op.rereads : Op → Bool
  | not => true
  | op => op.mixes

/-- What the lockstep of an operation takes. -/
structure Op.Demands (S : Simulation) (w : S.World) (op : Op) : Prop where
  reads : ∀ s t, S.frames w s t → ∀ i ∈ op.reads s.instruction.operands.length, S.Legible w i
  explicit : ∀ s t, S.frames w s t →
    ∀ i ∈ op.explicitTargets s.instruction.operands.length,
      ∀ dst, s.instruction.operands[i]? = some dst → S.target dst
  implicit : ∀ s t, S.frames w s t → ∀ id ∈ op.implicitTargets s.instruction.operands,
    S.TargetId id
  whole : op.mixes = true → S.At w 0 (S.whole w)
  complement : op = .not → S.At w 0 fun dst => S.source dst →
    S.Writes w (X86.complement dst) (X86.complement dst) S.nothing
  clears : op = .bitwise .xor → Clears S w
  free : op = .imul → S.At w 2 fun other => S.taint (S.level w other) false false
  flat : op.shifts = true → S.Flat
  stack : op.usesStack = true → S.Ends w op.execute op.execute
  count : op.rotates = true → SameCount S w
  noFlag : op.shifts = true → S.sure → S.At w 0 NoFlag

theorem Op.stack_ends (C : S.Covers) (huses : op.usesStack = true) (hstack : StackOpen S w op)
    (hr₀ : op.reads 1 = [0] → S.Legible w 0) (ht : op = .pop → S.At w 0 S.target) :
    S.BothEnd w op.execute := by
  cases op with
  | push => exact C.complete L (push_lockstep L (hr₀ rfl) (hstack.push rfl))
  | pop => exact C.complete L (pop_lockstep L (hstack.pop rfl) (ht rfl))
  | call => exact (call_ends L C (hr₀ rfl) (hstack.call rfl)).completeBranch
  | ret => exact (ret_ends L C (hstack.ret rfl) (hstack.short rfl)).completeBranch
  | _ => cases huses

/-- Where taint follows no level and what may be read may be written, an operation
takes no more than the stack pointer and the count of a rotation. -/
theorem Op.Demands.of_flat (C : S.Covers) (hflat : S.Flat)
    (hlegible : ∀ {op}, S.source op → S.legible w op)
    (htarget : ∀ {dst}, S.source dst → S.target dst)
    (hwhole : op.rereads = true → S.At w 0 (S.whole w))
    (hstack : op.usesStack = true → StackOpen S w op) (hcount : op.rotates = true → SameCount S w)
    (hnoFlag : op.shifts = true → S.sure → S.At w 0 NoFlag) : op.Demands S w where
  reads _ _ _ i _ := .of_source L hlegible i
  explicit s t hst i _ dst hdst := Simulation.At.of_source L htarget i s t dst hst hdst
  implicit _ _ _ _ _ _ hreg := htarget (L.source_register (has_of_register? hreg))
  whole hmixes := hwhole (by cases op <;> first | rfl | exact hmixes)
  complement hnot s t dst hst hdst hsource :=
    complement_lockstep L hsource (htarget hsource) (hwhole (hnot ▸ rfl) s t dst hst hdst)
      (hlegible hsource)
  clears _ := Clears.of_flat L hflat ⟨.of_source L hlegible 0, .of_source L hlegible 1⟩
  free _ _ _ _ _ _ := hflat L.taint_false
  flat _ := hflat
  stack huses := stack_ends L C huses (hstack huses) (fun _ => .of_source L hlegible 0)
    fun _ => .of_source L htarget 0
  count := hcount
  noFlag := hnoFlag

namespace Op

variable {op : Op} (D : op.Demands S w)

include D

omit L in
theorem Demands.target (i : Nat) (h : ∀ count, i ∈ op.explicitTargets count := by
      simp [explicitTargets]) : S.At w i S.target :=
  fun s t dst hst hdst => D.explicit s t hst i (h _) dst hdst

omit L in
theorem Demands.legible (i : Nat) (h : ∀ count, i ∈ op.reads count := by simp [reads]) :
    S.Legible w i := fun s t src hst hsrc => D.reads s t hst i (h _) s t src hst hsrc

omit L in
theorem Demands.pair (h : ∀ count, op.reads count = [0, 1] := by simp [reads]) : LegiblePair S w :=
  ⟨D.legible 0 fun count => by simp [h count], D.legible 1 fun count => by simp [h count]⟩

/-- The operations on the accumulator write registers that depend on the width of their
operand. -/
theorem Demands.registers {targets : Nat → List Nat} {s t : Frame} (hst : S.frames w s t)
    (h : ∀ src, s.instruction.operands[0]? = some src →
      op.implicitTargets s.instruction.operands = targets src.bits) :
    S.At w 0 fun src => ∀ id ∈ targets src.bits, S.TargetId id := by
  intro s' t' src hst' hsrc id hid
  rw [L.operands hst' hst] at hsrc
  refine D.implicit s t hst id ?_
  rw [h src hsrc]
  exact hid

/-- Where a division does, every operation leads two runs to one result. -/
theorem execute_ends (C : S.Covers) (hx : S.arch.isX86 = true)
    (hdivide : ∀ signed, op = .divide signed → S.BothEnd w (X86.divide signed)) :
    S.BothEnd w op.execute := by
  cases op with
  | add | sub => exact C.complete L (combine_lockstep L (D.target 0) D.pair _ _)
  | adc | sbb => exact C.complete L (combineWithCarry_lockstep L (D.target 0) D.pair _ _)
  | cmp => exact C.complete L (cmp_lockstep L D.pair)
  | bitwise kind =>
    exact C.complete L (bitwise_lockstep L C hx kind (D.target 0) D.pair
      fun h => D.clears (congrArg bitwise h))
  | test => exact C.complete L (test_lockstep L C hx D.pair)
  | inc | dec =>
    exact C.complete L (count_lockstep L (D.target 0) (D.whole rfl) (D.legible 0) _ _)
  | neg => exact C.complete L (neg_lockstep L (D.target 0) (D.whole rfl) (D.legible 0))
  | not => exact C.complete L (not_lockstep L (D.complement rfl))
  | mov => exact C.complete L (mov_lockstep L (D.target 0) (D.legible 1))
  | extend signed => exact C.complete L (extend_lockstep L (D.target 0) (D.legible 1) signed)
  | lea => exact C.complete L (lea_lockstep L (D.target 0))
  | xchg => exact C.complete L (xchg_lockstep L (D.target 0) (D.target 1) D.pair)
  | bswap => exact C.complete L (bswap_lockstep L (D.target 0) (D.whole rfl) (D.legible 0))
  | push | pop | call | ret => exact D.stack rfl
  | jump => exact (jump_ends L C (D.legible 0)).completeBranch
  | jumpIf condition => exact (jumpIf_ends L C (D.legible 0) condition).completeBranch
  | setIf condition => exact C.complete L (setIf_lockstep L (D.target 0) condition)
  | moveIf condition => exact C.complete L (moveIf_lockstep L (D.target 0) D.pair condition)
  | shift kind =>
    exact C.complete L (shift_lockstep L C hx (D.flat rfl) kind (D.target 0) D.pair (D.noFlag rfl))
  | rotate left =>
    exact C.complete L (rotate_lockstep L (D.flat rfl) left (D.target 0) D.pair.1 (D.count rfl)
      (D.noFlag rfl))
  | mul =>
    refine C.complete L (mul_lockstep L C hx (.of_frames fun s t hst => ?_) (D.legible 0))
    refine D.registers L hst fun src h => ?_
    simp only [implicitTargets, h, Option.elim_some]
  | imul =>
    refine C.complete L (imul_lockstep L C hx ?_ ?_ (D.free rfl) D.reads)
    · intro s t hst hlength
      refine D.registers L hst fun src h => ?_
      simp only [implicitTargets, hlength, if_true, h, Option.elim_some]
    · intro s t hst hlength s' t' dst hst' hdst
      rw [L.operands hst' hst] at hdst
      refine D.explicit s t hst 0 ?_ dst hdst
      simp only [explicitTargets, hlength, if_false, List.mem_singleton]
  | divide signed => exact hdivide signed rfl
  | widen source target =>
    refine Ends.of_frames fun s t hst => C.complete L (widen_lockstep L ?_)
    exact D.implicit s t hst target (List.mem_singleton_self _)
  | spread source target =>
    refine Ends.of_frames fun s t hst => C.complete L (spread_lockstep L ?_)
    exact D.implicit s t hst target (List.mem_singleton_self _)
  | setFlag flag value => exact C.complete L (setFlag_lockstep L flag value)
  | complementCarry => exact C.complete L (complementCarry_lockstep L)
  | nop => exact C.complete L (Writes.pure L.toWords trivial)
  | breakpoint => exact Ends.pure L _
  | halt => exact Ends.pure L _

omit D in
theorem Demands.quotients {signed : Bool} (D : (divide signed).Demands S w) :
    S.At w 0 fun src => ∀ id ∈ quotientTargets src.bits, S.TargetId id := by
  refine .of_frames fun s t hst => D.registers L hst fun src h => ?_
  simp only [implicitTargets, h, Option.elim_some]

variable (C : S.Covers) (hx : S.arch.isX86 = true)

include C hx

/-- Where every operand has one value, two runs of an operation lead to one result. -/
theorem execute_alike (hlevel : ∀ op, S.level w op = false) : S.BothEnd w op.execute := by
  refine execute_ends L D C hx ?_
  rintro signed rfl
  exact divide_ends L C hx signed (Demands.quotients L D) (D.legible 0) hlevel

/-- Two runs of an operation with one result lead to related frames. -/
theorem execute_meets (hw : Exchangeable S w) : S.Meets w op.execute op.execute := by
  by_cases hop : ∃ signed, op = .divide signed
  · obtain ⟨signed, rfl⟩ := hop
    exact divide_meets L C hx signed (Demands.quotients L D) (D.legible 0) hw
  · exact (execute_ends L D C hx fun signed h => absurd ⟨signed, h⟩ hop).meets

end Op

end Concolic.X86
