import Concolic.Proofs.Lockstep.Step

/-
  The AArch64 instructions run in lockstep: none of them decides by values.
-/

namespace Concolic.AArch64

open Simulation (Laws Covers Reads Writes Ends)

/-! What an operation reads and writes, and what it branches to. -/

/-- The places of the operands that an operation reads. -/
def Op.reads : Op → List Nat
  | binary _ _ => [1, 2]
  | cmp | branchZero _ => [0, 1]
  | mov | mvn | neg | ldr => [1]
  | movz => []
  | str | branch | branchIf _ | branchLink | branchRegister | ret => [0]

/-- The place of the operand that an operation writes. -/
def Op.explicitTarget : Op → Option Nat
  | binary _ _ | mov | movz | mvn | neg | ldr => some 0
  | str => some 1
  | _ => none

/-- The place of a branch target whose taint does not count. -/
def Op.fixedTarget : Op → Option Nat
  | branch | branchLink | branchIf _ => some 0
  | branchZero _ => some 1
  | _ => none

variable {S : Simulation} {w : S.World} {l : Bool} (L : S.Laws)

/-! Flags and conditions. -/

include L

theorem writeRoot_lockstep {id : Nat} {f f' : Formula} {b b' : Bool} (comment : String)
    (hf : S.knows w l f f') (hb : S.taint l b b') (h : id ∈ [n, z, c, v, x30] := by decide) :
    S.Writes w (Step.writeRegister id f comment b) (Step.writeRegister id f' comment b')
      S.nothing :=
  L.writeRegister id comment
    (L.targetId_of_mem h fun arch => by cases arch <;> decide +kernel) hf hb

theorem writeFlags_lockstep (kind : FlagKind) {a a' b b' r r' : Formula} {t t' : Bool}
    (ha : S.knows w l a a') (hb : S.knows w l b b') (hr : S.knows w l r r') (ht : S.taint l t t') :
    S.Writes w (writeFlags kind a b r t) (writeFlags kind a' b' r' t') S.nothing := by
  refine (L.sign hr).then fun negative negative' hnegative => ?_
  refine (L.isZero hr).then fun zero zero' hzero => ?_
  refine L.bind (writeRoot_lockstep L _ hnegative ht) fun w₁ h₁ _ _ _ => ?_
  refine L.bind (writeRoot_lockstep L _ (L.knows_mono h₁ hzero) ht) fun w₂ h₂ _ _ _ => ?_
  have h := L.trans h₁ h₂
  have ha := L.knows_mono h ha
  have hb := L.knows_mono h hb
  have hr := L.knows_mono h hr
  refine (L.arith .xor ha hb).then fun differ differ' hdiffer => ?_
  cases kind with
  | arithmetic kind =>
    have hcarry : S.Builds w₂ (carry kind differ a b r) (carry kind differ' a' b' r')
        (S.knows w₂ l) := by
      refine (L.carry kind hdiffer ha hb hr).bind fun out out' hout => ?_
      cases kind with
      | sum => exact .pure hout
      | difference => exact L.unary .not hout
    refine hcarry.then fun carry carry' hcarry => ?_
    refine (L.overflow kind hdiffer ha hb hr).then fun o o' ho => ?_
    refine L.bind (writeRoot_lockstep L _ hcarry ht) fun w₃ h₃ _ _ _ => ?_
    exact writeRoot_lockstep L _ (L.knows_mono h₃ ho) ht
  | bitwise =>
    refine (L.flag false false).then fun off off' hoff => ?_
    refine L.bind (writeRoot_lockstep L _ hoff L.taint_false) fun w₃ h₃ _ _ _ => ?_
    exact writeRoot_lockstep L _ (L.knows_mono h₃ hoff) L.taint_false

structure FlagFormulas.Corresponds (S : Simulation) (w : S.World) (f f' : FlagFormulas) :
    Prop where
  n : S.knows w (S.levelOf w AArch64.n) f.n f'.n
  z : S.knows w (S.levelOf w AArch64.z) f.z f'.z
  c : S.knows w (S.levelOf w AArch64.c) f.c f'.c
  v : S.knows w (S.levelOf w AArch64.v) f.v f'.v

theorem readFlags_lockstep : S.BothRead w readFlags (FlagFormulas.Corresponds S w) := by
  refine (L.readRegisterId _).bind fun n n' hn => ?_
  refine (L.readRegisterId _).bind fun z z' hz => ?_
  refine (L.readRegisterId _).bind fun c c' hc => ?_
  exact (L.readRegisterId _).bind fun v v' hv => .pure ⟨hn, hz, hc, hv⟩

/-- A condition has the level of the flags that it reads. -/
theorem Condition.formula_lockstep (condition : Condition) {f f' : FlagFormulas}
    (hf : f.Corresponds S w f') :
    S.Builds w (condition.formula f) (condition.formula f')
      (S.knows w (S.levelAny w condition.flags)) := by
  have known : ∀ {id g g'}, S.knows w (S.levelOf w id) g g' → id ∈ condition.flags →
      S.knows w (S.levelAny w condition.flags) g g' :=
    fun hg h => L.raise (Simulation.levelOf_le h) hg
  have hn := known hf.n
  have hz := known hf.z
  have hc := known hf.c
  have hv := known hf.v
  cases condition with
  | eq => exact .pure (hz (by decide))
  | ne => exact L.unary .not (hz (by decide))
  | hs => exact .pure (hc (by decide))
  | lo => exact L.unary .not (hc (by decide))
  | mi => exact .pure (hn (by decide))
  | pl => exact L.unary .not (hn (by decide))
  | vs => exact .pure (hv (by decide))
  | vc => exact L.unary .not (hv (by decide))
  | hi =>
    exact (L.unary .not (hz (by decide))).bind fun a a' ha => L.arith .and (hc (by decide)) ha
  | ls =>
    exact (L.unary .not (hc (by decide))).bind fun a a' ha => L.arith .or ha (hz (by decide))
  | ge => exact L.compare .eq (hn (by decide)) (hv (by decide))
  | lt => exact L.compare .ne (hn (by decide)) (hv (by decide))
  | gt =>
    refine (L.unary .not (hz (by decide))).bind fun a a' ha => ?_
    exact (L.compare .eq (hn (by decide)) (hv (by decide))).bind fun b b' hb => L.arith .and ha hb
  | le =>
    exact (L.compare .ne (hn (by decide)) (hv (by decide))).bind
      fun a a' ha => L.arith .or (hz (by decide)) ha

theorem Condition.read_lockstep (condition : Condition) :
    S.BothRead w condition.read (S.Tagged w) := by
  refine (readFlags_lockstep L).bind fun f f' hf => ?_
  refine Reads.bind (condition.formula_lockstep L hf) fun h h' hh => ?_
  exact (L.anyRegisterTainted _).bind fun b b' hb => .pure ⟨_, hh, hb⟩

/-! Data. -/

omit L in
/-- A shift of a moved immediate stays within the greatest width. -/
def ShortShift (op : Operand) : Prop := ∀ imm, op = .immediate imm → imm.value.toNat < Word.limit

omit L in
theorem targetWidth_range : Formula.WordWidth targetWidth := by decide

section

variable (ht : S.At w 0 S.target)

theorem cmp_lockstep (hr₀ : S.Legible w 0) (hr₁ : S.Legible w 1) : S.BothWrite w cmp S.nothing := by
  refine L.writesOperand 0 fun src₁ hsrc₁ => ?_
  refine L.writesOperand 1 fun src₂ hsrc₂ => ?_
  refine (L.read hsrc₁.source (hsrc₁.at hr₀)).then fun a a' ha => ?_
  refine (L.readSized (L.source_range hsrc₁.source) hsrc₂.source (hsrc₂.at hr₁)).then
    fun b b' hb => ?_
  have ha := L.raise (Bool.left_le_or _ (S.level w src₂)) ha
  have hb := L.raise (Bool.right_le_or (S.level w src₁) _) hb
  refine (L.arith .sub ha hb).then fun r r' hr => ?_
  refine (L.isTainted src₁).then fun t t' ht => ?_
  refine (L.isTainted src₂).then fun u u' hu => ?_
  refine L.bind (L.volatile _ hr (L.taint_or ht hu)) fun w' hle _ _ _ => ?_
  exact writeFlags_lockstep L _ (L.knows_mono hle ha) (L.knows_mono hle hb)
    (L.knows_mono hle hr) (L.taint_or ht hu)

theorem readMove_lockstep (hr₁ : S.Legible w 1) : S.BothRead w readMove fun p p' =>
    S.SameOperand w 0 p.1 p'.1 ∧ p.2.1 = p'.2.1 ∧
      S.knows w (S.level w p.2.1) p.2.2 p'.2.2 := by
  refine (L.operand 0).bind fun dst dst' hdst => ?_
  refine (L.operand 1).bind fun src src' hsrc => ?_
  obtain rfl := hdst.eq
  obtain rfl := hsrc.eq
  refine (L.readSized (L.source_range hdst.source) hsrc.source (hsrc.at hr₁)).bind fun f f' hf => ?_
  exact .pure ⟨hdst, rfl, hf⟩

theorem str_lockstep (ht' : S.At w 1 S.target) (hr₀ : S.Legible w 0) :
    S.BothWrite w str S.nothing := by
  refine L.writesOperand 0 fun src hsrc => ?_
  refine L.writesOperand 1 fun dst hdst => ?_
  refine (L.read hsrc.source (hsrc.at hr₀)).then fun f f' hf => ?_
  refine (L.resize _ hf).then fun r r' hr => ?_
  exact L.move _ (hdst.at ht') hr

include ht

section

variable (hr₁ : S.Legible w 1)

include hr₁

theorem binary_lockstep (hr₂ : S.Legible w 2) (kind : Binary) (setFlags : Bool) :
    S.BothWrite w (binary kind setFlags) S.nothing := by
  refine L.writesOperand 0 fun dst hdst => ?_
  refine L.writesOperand 1 fun src₁ hsrc₁ => ?_
  refine L.writesOperand 2 fun src₂ hsrc₂ => ?_
  have hwidth := L.source_range hdst.source
  refine (L.readSized hwidth hsrc₁.source (hsrc₁.at hr₁)).then fun a a' ha => ?_
  refine (L.readSized hwidth hsrc₂.source (hsrc₂.at hr₂)).then fun b b' hb => ?_
  have ha := L.raise (Bool.left_le_or _ (S.level w src₂)) ha
  have hb := L.raise (Bool.right_le_or (S.level w src₁) _) hb
  refine (L.arith _ ha hb).then fun r r' hr => ?_
  refine L.bind (L.unite _ (hdst.at ht) hr) fun w' hle t t' ht => ?_
  cases setFlags with
  | false => exact Writes.pure L.toWords trivial
  | true =>
    exact writeFlags_lockstep L _ (L.knows_mono hle ha) (L.knows_mono hle hb)
      (L.knows_mono hle hr) ht

theorem mov_lockstep : S.BothWrite w mov S.nothing := by
  refine (readMove_lockstep L hr₁).then fun p p' hp => ?_
  obtain ⟨dst', src', f'⟩ := p'
  obtain ⟨hdst, rfl, hf⟩ := hp
  obtain rfl := hdst.eq
  exact L.move _ (hdst.at ht) hf

theorem moveUnary_lockstep (op : UnaryOp) (comment : String) :
    S.BothWrite w (moveUnary op comment) S.nothing := by
  refine (readMove_lockstep L hr₁).then fun p p' hp => ?_
  obtain ⟨dst', src', f'⟩ := p'
  obtain ⟨hdst, rfl, hf⟩ := hp
  obtain rfl := hdst.eq
  refine (L.unary op hf).then fun r r' hr => ?_
  exact L.move _ (hdst.at ht) hr

end

theorem movz_lockstep (hshort : S.sure → S.At w 2 ShortShift) : S.BothWrite w movz S.nothing := by
  refine L.writesOperand 0 fun dst hdst => ?_
  refine L.writesOperand 1 fun src hsrc => ?_
  cases src with
  | register reg => exact L.refuseWrites fun _ => rfl
  | memory access => exact L.refuseWrites fun _ => rfl
  | immediate imm =>
    have hload : ∀ low shift, (S.sure → shift < Word.limit) → S.BothWrite w
        (Step.shiftLeft low shift >>= fun value =>
          Step.exec (Exec.build (Build.constant value dst.bits)) >>= fun f =>
            discard (Step.assign dst f "MOVZ operation" (Step.setTaint dst false)))
        S.nothing := by
      intro low shift hshift
      refine (L.shiftLeft _ hshift).then fun value value' hvalue => ?_
      subst hvalue
      refine (L.constant _ _ (L.source_range hdst.source)).then fun f f' hf => ?_
      exact L.put _ (hdst.at ht) hf.1 L.taint_false
    refine (L.operand? 2).then fun op op' hop => ?_
    cases hop with
    | none => exact hload _ _ fun _ => by decide
    | @some op op' hop =>
      obtain rfl := hop.eq
      cases op with
      | immediate imm =>
        have hle : imm.value.toUInt32.toNat ≤ imm.value.toNat := by
          rw [UInt64.toNat_toUInt32]
          exact Nat.mod_le _ _
        exact hload _ _ fun hs => hle.trans_lt (hop.at (hshort hs) imm rfl)
      | register reg => exact hload _ _ fun _ => by simp [Word.limit]
      | memory access => exact hload _ _ fun _ => by simp [Word.limit]

theorem ldr_lockstep (hr₁ : S.Legible w 1) : S.BothWrite w ldr S.nothing := by
  refine L.writesOperand 0 fun dst hdst => ?_
  refine L.writesOperand 1 fun src hsrc => ?_
  refine (L.read hsrc.source (hsrc.at hr₁)).then fun f f' hf => ?_
  refine (L.resize _ hf).then fun r r' hr => ?_
  exact L.move _ (hdst.at ht) hr

end

/-! Branches. -/

section

variable (C : S.Covers) {op : Op}

include C

theorem branchTo_ends {src : Operand} (hsrc : S.source src) (hlegible : S.legible w src) :
    S.BothEnd w (branchTo src) := by
  refine Ends.after (L.readSized (fun _ => targetWidth_range) hsrc hlegible) fun f f' hf => ?_
  exact Ends.after (L.isTainted src) fun b b' hb => C.jump L false hf hb

theorem ret_ends (hr₀ : S.Legible w 0) : S.BothEnd w ret := by
  refine Ends.after (L.operand? 0) fun op op' hop => ?_
  cases hop with
  | none =>
    refine Ends.after (L.register x30) fun reg reg' hreg => ?_
    obtain ⟨rfl, hreg⟩ := hreg
    exact branchTo_ends L C (L.source_register (Architecture.has_of_register? hreg))
      L.legible_register
  | some hop =>
    obtain rfl := hop.eq
    exact branchTo_ends L C hop.source (hop.at hr₀)

section

-- no taint has to cover the target
variable (hfree : S.At w 0 fun op => S.taint (S.level w op) false false) (hr₀ : S.Legible w 0)

include hfree hr₀

theorem branch_ends : S.BothEnd w branch := by
  refine L.endsOperand 0 fun src hsrc => ?_
  refine Ends.after (L.readSized (fun _ => targetWidth_range) hsrc.source (hsrc.at hr₀))
    fun f f' hf => ?_
  exact C.jump L false hf (hsrc.at hfree)

theorem branchLink_ends : S.BothEnd w branchLink := by
  refine L.endsOperand 0 fun src hsrc => ?_
  refine Ends.after (L.readSized (fun _ => targetWidth_range) hsrc.source (hsrc.at hr₀))
    fun f f' hf => ?_
  refine Ends.after L.fallThrough fun next next' hnext => ?_
  subst hnext
  refine Ends.after (L.constant _ _ fun _ => targetWidth_range) fun link link' hlink => ?_
  refine Ends.bind (writeRoot_lockstep L _ hlink.1 L.taint_false) fun w' hle _ _ _ => ?_
  exact C.jump L false (L.knows_mono hle hf) (hsrc.at hfree)

theorem branchIf_ends (condition : Condition) : S.BothEnd w (branchIf condition) := by
  refine Ends.after (condition.read_lockstep L) fun h h' hh => ?_
  obtain ⟨l, hh, hb⟩ := hh
  refine L.endsOperand 0 fun src hsrc => ?_
  refine Ends.after (L.readSized (fun _ => targetWidth_range) hsrc.source (hsrc.at hr₀))
    fun f f' hf => ?_
  refine Ends.after (L.choose (fun _ => targetWidth_range) (L.raise (Bool.left_le_or _ (S.level w src)) hh)
    (L.raise (Bool.right_le_or _ _) hf)) fun g g' hg => ?_
  have htaint := L.taint_or hb (hsrc.at hfree)
  rw [Bool.or_false, Bool.or_false] at htaint
  exact C.jump L true hg htaint

end

theorem branchZero_ends (nonZero : Bool)
    (hfree : S.At w 1 fun op => S.taint (S.level w op) false false) (hr₀ : S.Legible w 0)
    (hr₁ : S.Legible w 1) : S.BothEnd w (branchZero nonZero) := by
  refine L.endsOperand 0 fun src hsrc => ?_
  refine Ends.after (L.read hsrc.source (hsrc.at hr₀)) fun f f' hf => ?_
  refine L.endsOperand 1 fun op hop => ?_
  have hf := L.raise (Bool.left_le_or _ (S.level w op)) hf
  refine Ends.after (L.readSized (fun _ => targetWidth_range) hop.source (hop.at hr₁))
    fun target target' htarget => ?_
  have htarget := L.raise (Bool.right_le_or (S.level w src) _) htarget
  refine Ends.after L.fallThrough fun next next' hnext => ?_
  subst hnext
  refine Ends.after (L.word (S.level w src || S.level w op) _ fun _ => targetWidth_range)
    fun n n' hn => ?_
  rw [← L.width_eq hf]
  refine Ends.after (L.zero (S.level w src || S.level w op) (L.width_range hf))
    fun zero zero' hzero => ?_
  refine Ends.after (L.compare _ hf hzero) fun h h' hh => ?_
  refine Ends.after (L.ite hh htarget hn) fun g g' hg => ?_
  refine Ends.after (L.isTainted src) fun b b' hb => ?_
  have htaint := L.taint_or hb (hop.at hfree)
  rw [Bool.or_false, Bool.or_false] at htaint
  exact C.jump L true hg htaint

/-! Every operation. -/

structure Op.Demands (S : Simulation) (w : S.World) (op : Op) : Prop where
  reads : ∀ i ∈ op.reads, S.Legible w i
  target : ∀ i, op.explicitTarget = some i → S.At w i S.target
  free : ∀ i, op.fixedTarget = some i →
    S.At w i fun target => S.taint (S.level w target) false false
  short : S.sure → op = .movz → S.At w 2 ShortShift

omit C in
theorem Op.Demands.of_flat (hflat : S.Flat) (hlegible : ∀ {op}, S.source op → S.legible w op)
    (htarget : ∀ i, op.explicitTarget = some i → S.At w i S.target)
    (hshort : S.sure → op = .movz → S.At w 2 ShortShift) : op.Demands S w where
  reads i _ := .of_source L hlegible i
  target := htarget
  free _ _ _ _ _ _ _ := hflat L.taint_false
  short := hshort

theorem Op.execute_ends (D : op.Demands S w) : S.BothEnd w op.execute := by
  have htarget := D.target
  have hfree := D.free
  have hreads := D.reads
  cases op with
  | binary kind setFlags =>
    exact C.complete L (binary_lockstep L (htarget 0 rfl) (hreads 1 (by simp [reads]))
      (hreads 2 (by simp [reads])) kind setFlags)
  | cmp =>
    exact C.complete L (cmp_lockstep L (hreads 0 (by simp [reads])) (hreads 1 (by simp [reads])))
  | mov => exact C.complete L (mov_lockstep L (htarget 0 rfl) (hreads 1 (by simp [reads])))
  | movz => exact C.complete L (movz_lockstep L (htarget 0 rfl) fun hs => D.short hs rfl)
  | mvn | neg =>
    exact C.complete L (moveUnary_lockstep L (htarget 0 rfl) (hreads 1 (by simp [reads])) _ _)
  | ldr => exact C.complete L (ldr_lockstep L (htarget 0 rfl) (hreads 1 (by simp [reads])))
  | str => exact C.complete L (str_lockstep L (htarget 1 rfl) (hreads 0 (by simp [reads])))
  | branch => exact (branch_ends L C (hfree 0 rfl) (hreads 0 (by simp [reads]))).completeBranch
  | branchIf condition =>
    exact (branchIf_ends L C (hfree 0 rfl) (hreads 0 (by simp [reads])) condition).completeBranch
  | branchLink =>
    exact (branchLink_ends L C (hfree 0 rfl) (hreads 0 (by simp [reads]))).completeBranch
  | branchRegister =>
    refine Ends.completeBranch ?_
    refine L.endsOperand 0 fun src hsrc => ?_
    exact branchTo_ends L C hsrc.source (hsrc.at (hreads 0 (by simp [reads])))
  | ret => exact (ret_ends L C (hreads 0 (by simp [reads]))).completeBranch
  | branchZero nonZero =>
    exact (branchZero_ends L C nonZero (hfree 1 rfl) (hreads 0 (by simp [reads]))
      (hreads 1 (by simp [reads]))).completeBranch

end

end Concolic.AArch64
