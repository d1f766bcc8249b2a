import Concolic.Proofs.Lockstep.Step

/-
  The x86 flags, arithmetic, conditions and transfers run in lockstep: one lemma
  for each function of their semantics.
-/

namespace Concolic.X86

open Simulation (Laws Covers Reads Writes Ends)
open Step

variable {b b' : Bool} {f f' : Formula} {id : Nat}

variable {S : Simulation} {w : S.World} {l : Bool} {r r' : Formula} {source target : Nat}
  {p p' : Pair} {w' : S.World}

/-! Flags. -/

theorem target_flag (L : S.Laws) (h : id ∈ [af, cf, df, interruptFlag, of, pf, sf, zf]) :
    S.TargetId id :=
  L.targetId_of_mem h fun arch => by cases arch <;> decide +kernel

theorem hasRoot_flag (hx : S.arch.isX86 = true) (h : id ∈ statusFlags) : S.HasRoot id := by
  have hall : ∀ arch : Architecture, arch.isX86 = true → ∀ id ∈ statusFlags,
      (arch.register? id).any (fun reg => reg.isRoot && (!arch.isZeroRegister reg &&
        !arch.isProgramCounter reg)) = true := by
    intro arch
    cases arch <;> decide +kernel
  obtain ⟨reg, hreg, hroot⟩ := (Option.any_eq_true _ _).1 (hall S.arch hx id h)
  simp only [Bool.and_eq_true, Bool.not_eq_true'] at hroot
  exact ⟨reg, hreg, hroot⟩

/-- Corresponding operands and results of one level, with taints that cover it. -/
structure Outcome.Corresponds (S : Simulation) (w : S.World) (l : Bool) (o o' : Outcome) :
    Prop where
  left : S.knows w l o.left o'.left
  right : S.knows w l o.right o'.right
  result : S.knows w l o.result o'.result
  tainted : S.taint l o.tainted o'.tainted

section

variable (L : S.Laws)

include L

theorem Outcome.Corresponds.later {o o' : Outcome} (ho : o.Corresponds S w l o') (hle : S.le w w') :
    o.Corresponds S w' l o' :=
  ⟨L.knows_mono hle ho.left, L.knows_mono hle ho.right, L.knows_mono hle ho.result, ho.tainted⟩

theorem writeFlag_lockstep (comment : String) (hf : S.knows w l f f') (hb : S.taint l b b')
    (h : id ∈ [af, cf, df, interruptFlag, of, pf, sf, zf] := by decide) :
    S.Writes w (writeRegister id f comment b) (writeRegister id f' comment b')
      S.nothing := L.writeRegister id comment (target_flag L h) hf hb

theorem parity_lockstep (hf : S.knows w l f f') :
    S.Builds w (parity f) (parity f') (S.knows w l) := by
  refine (L.flag l true).bind fun start start' hstart => ?_
  refine (Simulation.Builds.sideBySide L.toWords).foldlM ?_ (List.forall₂_same.2 fun i _ => rfl) hstart
  rintro a b i j hab rfl
  exact (L.extract i i hf).bind fun bit bit' hbit => L.arith .xor hab hbit

theorem adjust_lockstep (hf : S.knows w l f f') :
    S.Builds w (adjust f) (adjust f') (S.knows w l) := by
  unfold adjust
  rw [← L.width_eq hf]
  refine (L.word l _ (L.width_range hf)).bind fun bit bit' hbit => ?_
  exact (L.arith .and hf hbit).bind fun masked masked' hmasked => L.compare .eq hmasked hbit

section

variable {o o' : Outcome}

section

variable (ho : o.Corresponds S w l o')

include ho

theorem writeAdjust_lockstep : S.Writes w (writeAdjust o) (writeAdjust o') S.nothing := by
  refine (L.arith .xor ho.left ho.right).then fun differ differ' hdiffer => ?_
  refine (L.arith .xor hdiffer ho.result).then fun changed changed' hchanged => ?_
  refine (adjust_lockstep L hchanged).then fun f f' hf => ?_
  exact writeFlag_lockstep L _ hf ho.tainted

theorem writeCarry_lockstep (kind : Flags.Kind) :
    S.Writes w (writeCarry kind o) (writeCarry kind o') S.nothing := by
  refine (L.arith .xor ho.left ho.right).then fun differ differ' hdiffer => ?_
  refine (L.carry kind hdiffer ho.left ho.right ho.result).then fun f f' hf => ?_
  exact writeFlag_lockstep L _ hf ho.tainted

theorem writeOverflow_lockstep (kind : Flags.Kind) :
    S.Writes w (writeOverflow kind o) (writeOverflow kind o') S.nothing := by
  refine (L.arith .xor ho.left ho.right).then fun differ differ' hdiffer => ?_
  refine (L.overflow kind hdiffer ho.left ho.right ho.result).then fun f f' hf => ?_
  exact writeFlag_lockstep L _ hf ho.tainted

end

theorem writeResultFlags_lockstep (hf : S.knows w l f f') (hb : S.taint l b b') :
    S.Writes w (writeResultFlags f b) (writeResultFlags f' b') S.nothing := by
  refine (parity_lockstep L hf).then fun even even' heven => ?_
  refine L.bind (writeFlag_lockstep L _ heven hb) fun w₁ h₁ _ _ _ => ?_
  have hf₁ := L.knows_mono h₁ hf
  refine (L.sign hf₁).then fun sign sign' hsign => ?_
  refine L.bind (writeFlag_lockstep L _ hsign hb) fun w₂ h₂ _ _ _ => ?_
  refine (L.isZero (L.knows_mono h₂ hf₁)).then fun zero zero' hzero => ?_
  exact writeFlag_lockstep L _ hzero hb

theorem writeFlags_lockstep (kind : Flags.Kind) (ho : o.Corresponds S w l o') :
    S.Writes w (writeFlags kind o) (writeFlags kind o') S.nothing := by
  refine L.bind (writeAdjust_lockstep L ho) fun w₁ h₁ _ _ _ => ?_
  have ho₁ := ho.later L h₁
  refine L.bind (writeCarry_lockstep L ho₁ kind) fun w₂ h₂ _ _ _ => ?_
  have ho₂ := ho₁.later L h₂
  refine L.bind (writeOverflow_lockstep L ho₂ kind) fun w₃ h₃ _ _ _ => ?_
  exact writeResultFlags_lockstep L (ho₂.later L h₃).result ho.tainted

omit L in
/-- The status flags may be left undefined. -/
theorem undefineFlag_lockstep (C : S.Covers) (hx : S.arch.isX86 = true) (h : id ∈ statusFlags) :
    S.BothWrite w (undefine id) S.nothing :=
  C.undefine (hasRoot_flag hx h)

theorem writeBitwiseFlags_lockstep (C : S.Covers) (hx : S.arch.isX86 = true)
    (hf : S.knows w l f f') (hb : S.taint l b b') :
    S.Writes w (writeBitwiseFlags f b) (writeBitwiseFlags f' b') S.nothing := by
  refine L.bind (undefineFlag_lockstep C hx (by decide)) fun w₁ h₁ _ _ _ => ?_
  refine (L.flag false false).then fun off off' hoff => ?_
  refine L.bind (writeFlag_lockstep L _ hoff L.taint_false) fun w₂ h₂ _ _ _ => ?_
  refine L.bind (writeFlag_lockstep L _ (L.knows_mono h₂ hoff) L.taint_false) fun w₃ h₃ _ _ _ => ?_
  exact writeResultFlags_lockstep L (L.knows_mono (L.trans h₁ (L.trans h₂ h₃)) hf) hb

end

/-! Two operands. -/

/-- The level of what is made of both operands. -/
def Pair.level (S : Simulation) (w : S.World) (p : Pair) : Bool :=
  S.level w p.dst || S.level w p.src

/-- The same operands with corresponding formulas. -/
structure Pair.Corresponds (S : Simulation) (w : S.World) (p p' : Pair) : Prop where
  dst : S.SameOperand w 0 p.dst p'.dst
  src : S.SameOperand w 1 p.src p'.src
  left : S.knows w (S.level w p.dst) p.left p'.left
  right : S.knows w (S.level w p.src) p.right p'.right

def LegiblePair (S : Simulation) (w : S.World) : Prop := S.Legible w 0 ∧ S.Legible w 1

theorem readPair_lockstep (hr : LegiblePair S w) :
    S.BothRead w readPair (Pair.Corresponds S w) := by
  refine (L.operand 0).bind fun dst dst' hdst => ?_
  refine (L.operand 1).bind fun src src' hsrc => ?_
  obtain rfl := hdst.eq
  obtain rfl := hsrc.eq
  refine (L.read hdst.source (hdst.at hr.1)).bind fun left left' hleft => ?_
  refine (L.readSized (L.source_range hdst.source) hsrc.source (hsrc.at hr.2)).bind
    fun right right' hright => ?_
  exact .pure ⟨hdst, hsrc, hleft, hright⟩

section

variable {p p' : Pair} (hp : p.Corresponds S w p')

include hp

theorem Pair.Corresponds.leftJoint : S.knows w (p.level S w) p.left p'.left :=
  L.raise (Bool.left_le_or _ _) hp.left

theorem Pair.Corresponds.rightJoint : S.knows w (p.level S w) p.right p'.right :=
  L.raise (Bool.right_le_or _ _) hp.right

theorem Pair.isTainted_lockstep : S.Reads w p.isTainted p'.isTainted (S.taint (p.level S w)) := by
  unfold isTainted
  rw [← hp.dst.eq, ← hp.src.eq]
  refine (L.isTainted _).bind fun b b' hb => ?_
  exact (L.isTainted _).bind fun c c' hc => .pure (L.taint_or hb hc)

theorem assignPair_lockstep (comment : String) (ht : S.At w 0 S.target)
    (hf : S.knows w (p.level S w) f f') :
    S.Writes w (assign p.dst f comment (unionTaint p.dst p.dst p.src))
      (assign p'.dst f' comment (unionTaint p'.dst p'.dst p'.src))
      fun _ => S.taint (p.level S w) := by
  rw [← hp.dst.eq, ← hp.src.eq]
  exact L.unite comment (hp.dst.at ht) hf

theorem Pair.Corresponds.outcome (hl : p.level S w ≤ l) (hr : S.knows w l r r')
    (hb : S.taint l b b') (hle : S.le w w') :
    Outcome.Corresponds S w' l { left := p.left, right := p.right, result := r, tainted := b }
      { left := p'.left, right := p'.right, result := r', tainted := b' } :=
  ⟨L.knows_mono hle (L.raise hl (hp.leftJoint L)),
    L.knows_mono hle (L.raise hl (hp.rightJoint L)), L.knows_mono hle hr, hb⟩

end

theorem readCarry_lockstep (width : Nat) :
    S.BothRead w (readCarry width) (S.knows w (S.levelOf w cf)) := by
  exact (L.readRegisterId cf).bind fun f f' hf => L.zeroExtend width hf

theorem assignWithCarry_lockstep (comment : String) (hp : p.Corresponds S w p')
    (ht : S.At w 0 S.target) (hf : S.knows w (p.level S w || S.levelOf w cf) f f') :
    S.Writes w (assignWithCarry p f comment) (assignWithCarry p' f' comment)
      fun _ => S.taint (p.level S w || S.levelOf w cf) := by
  refine (Pair.isTainted_lockstep L hp).then fun b b' hb => ?_
  refine (L.isRegisterTainted cf).then fun c c' hc => ?_
  rw [← hp.dst.eq]
  exact L.set comment (hp.dst.at ht) hf (L.taint_or hb hc)

section

variable (ht : S.At w 0 S.target) (hr : LegiblePair S w)

include ht hr

theorem combine_lockstep (kind : Flags.Kind) (comment : String) :
    S.BothWrite w (combine kind comment) S.nothing := by
  refine (readPair_lockstep L hr).then fun p p' hp => ?_
  refine (L.arith kind.op (hp.leftJoint L) (hp.rightJoint L)).then fun r r' hr => ?_
  refine L.bind (assignPair_lockstep L hp _ ht hr) fun w' hle b b' hb => ?_
  exact writeFlags_lockstep L kind (hp.outcome L (le_refl _) hr hb hle)

omit ht hr in
theorem withCarry_lockstep {a a' b b' c c' : Formula} (kind : Flags.Kind) (ha : S.knows w l a a')
    (hb : S.knows w l b b') (hc : S.knows w l c c') :
    S.Builds w (withCarry kind a b c) (withCarry kind a' b' c') (S.knows w l) := by
  cases kind with
  | sum => exact (L.arith .add ha hb).bind fun sum sum' hsum => L.arith .add hsum hc
  | difference => exact (L.arith .add hb hc).bind fun s s' hs => L.arith .sub ha hs

theorem combineWithCarry_lockstep (kind : Flags.Kind) (comment : String) :
    S.BothWrite w (combineWithCarry kind comment) S.nothing := by
  refine (readPair_lockstep L hr).then fun p p' hp => ?_
  rw [← hp.dst.eq]
  refine (readCarry_lockstep L _).then fun c c' hc => ?_
  have hlevel := Bool.left_le_or (p.level S w) (S.levelOf w cf)
  refine (withCarry_lockstep L kind (L.raise hlevel (hp.leftJoint L))
    (L.raise hlevel (hp.rightJoint L)) (L.raise (Bool.right_le_or _ _) hc)).then fun r r' hr => ?_
  refine L.bind (assignWithCarry_lockstep L _ hp ht hr) fun w' hle b b' hb => ?_
  exact writeFlags_lockstep L _ (hp.outcome L hlevel hr hb hle)

end

theorem cmp_lockstep (hr : LegiblePair S w) : S.BothWrite w cmp S.nothing := by
  refine (readPair_lockstep L hr).then fun p p' hp => ?_
  refine (L.arith .sub (hp.leftJoint L) (hp.rightJoint L)).then fun r r' hr => ?_
  refine (Pair.isTainted_lockstep L hp).then fun b b' hb => ?_
  refine L.bind (L.volatile _ hr hb) fun w' hle _ _ _ => ?_
  exact writeFlags_lockstep L _ (hp.outcome L (le_refl _) hr hb hle)

omit L in
/-- A register combined with itself may lose its taint: no taint has to cover its
level, or it was read as one formula. -/
def Clears (S : Simulation) (w : S.World) : Prop :=
  S.Reads w readPair readPair fun p p' => p.Corresponds S w p' ∧ (p.sameRegister = true →
    S.taint (p.level S w) false false ∨ (p.left = p.right ∧ p'.left = p'.right))

theorem Clears.of_flat (h : S.Flat) (hr : LegiblePair S w) : Clears S w :=
  (readPair_lockstep L hr).mono fun _ _ hp => ⟨hp, fun _ => .inl (h L.taint_false)⟩

theorem assignBitwise_lockstep (kind : Bitwise) (hp : p.Corresponds S w p') (ht : S.At w 0 S.target)
    (hr : S.knows w (p.level S w) r r') (hclear : kind = .xor → p.sameRegister = true →
      ∃ l, S.knows w l r r' ∧ S.taint l false false) :
    S.Writes w (assignBitwise kind p r) (assignBitwise kind p' r')
      fun w' b b' => ∃ l, S.knows w' l r r' ∧ S.taint l b b' := by
  have hsame : p.sameRegister = p'.sameRegister := by
    simp only [Pair.sameRegister, hp.dst.eq, hp.src.eq]
  unfold assignBitwise
  rw [← hsame]
  have hassign : ∀ {l : Bool} {x y : Step Bool}, S.knows w l r r' →
      S.Writes w (assign p.dst r kind.comment x) (assign p'.dst r' kind.comment y)
        (fun _ => S.taint l) →
      S.Writes w (assign p.dst r kind.comment x) (assign p'.dst r' kind.comment y)
        fun w' b b' => ∃ l, S.knows w' l r r' ∧ S.taint l b b' := by
    intro l x y hr hxy s t hst
    refine (hxy s t hst).imp fun b b' s t h => ?_
    obtain ⟨w', hle, hframes, hb⟩ := h
    exact ⟨w', hle, hframes, l, L.knows_mono hle hr, hb⟩
  by_cases hxor : (kind = .xor && p.sameRegister) = true
  · rw [if_pos hxor, if_pos hxor]
    simp only [Bool.and_eq_true, decide_eq_true_eq] at hxor
    obtain ⟨l, hr, hb⟩ := hclear hxor.1 hxor.2
    refine hassign hr ?_
    rw [← hp.dst.eq]
    exact L.set _ (hp.dst.at ht) hr hb
  · rw [if_neg hxor, if_neg hxor]
    exact hassign hr (assignPair_lockstep L hp _ ht hr)

theorem bitwise_lockstep (C : S.Covers) (hx : S.arch.isX86 = true) (kind : Bitwise)
    (ht : S.At w 0 S.target) (hr : LegiblePair S w) (hclears : kind = .xor → Clears S w) :
    S.BothWrite w (bitwise kind) S.nothing := by
  have hfinish : ∀ {p p' : Pair} {r r' : Formula}, p.Corresponds S w p' →
      S.knows w (p.level S w) r r' →
      (kind = .xor → p.sameRegister = true → ∃ l, S.knows w l r r' ∧ S.taint l false false) →
      S.Writes w (assignBitwise kind p r >>= fun b => writeBitwiseFlags r b)
        (assignBitwise kind p' r' >>= fun b => writeBitwiseFlags r' b) S.nothing := by
    intro p p' r r' hp hr hclear
    refine L.bind (assignBitwise_lockstep L kind hp ht hr hclear) fun w' hle b b' hb => ?_
    obtain ⟨l, hr, hb⟩ := hb
    exact writeBitwiseFlags_lockstep L C hx hr hb
  by_cases hxor : kind = .xor
  · subst hxor
    refine (hclears rfl).then fun p p' hp => ?_
    obtain ⟨hp, hsame⟩ := hp
    by_cases hself : p.sameRegister = true
    · rcases hsame hself with htaint | ⟨hl, hr⟩
      · refine (L.arith .xor (hp.leftJoint L) (hp.rightJoint L)).then fun r r' hr => ?_
        exact hfinish hp hr fun _ _ => ⟨_, hr, htaint⟩
      · -- what was read as one formula cancels out
        rw [← hl, ← hr]
        refine (L.cancel hp.left).then fun r r' hr => ?_
        exact hfinish hp (L.raise (Bool.false_le _) hr) fun _ _ => ⟨_, hr, L.taint_false⟩
    · refine (L.arith .xor (hp.leftJoint L) (hp.rightJoint L)).then fun r r' hr => ?_
      exact hfinish hp hr fun _ h => absurd h hself
  · refine (readPair_lockstep L hr).then fun p p' hp => ?_
    refine (L.arith kind.op (hp.leftJoint L) (hp.rightJoint L)).then fun r r' hr => ?_
    exact hfinish hp hr fun h => absurd h hxor

theorem test_lockstep (C : S.Covers) (hx : S.arch.isX86 = true) (hr : LegiblePair S w) :
    S.BothWrite w test S.nothing := by
  refine (readPair_lockstep L hr).then fun p p' hp => ?_
  refine (L.arith .and (hp.leftJoint L) (hp.rightJoint L)).then fun r r' hr => ?_
  refine (Pair.isTainted_lockstep L hp).then fun b b' hb => ?_
  refine L.bind (L.volatile _ hr hb) fun w' hle _ _ _ => ?_
  exact writeBitwiseFlags_lockstep L C hx (L.knows_mono hle hr) hb

/-! One operand, which is written in place and keeps its taint. -/

section

variable (ht : S.At w 0 S.target) (hwhole : S.At w 0 (S.whole w)) (hr₀ : S.Legible w 0)

include ht hwhole hr₀

theorem count_lockstep (kind : Flags.Kind) (comment : String) :
    S.BothWrite w (count kind comment) S.nothing := by
  refine L.writesOperand 0 fun dst hdst => ?_
  refine (L.read hdst.source (hdst.at hr₀)).then fun f f' hf => ?_
  refine (L.word (S.level w dst) _ (L.source_range hdst.source)).then fun one one' hone => ?_
  refine (L.arith kind.op hf hone).then fun r r' hr => ?_
  refine L.bind (L.keep _ (hdst.at ht) (hdst.at hwhole) hr) fun w₁ h₁ b b' hb => ?_
  have ho : Outcome.Corresponds S w₁ _ ⟨f, one, r, b⟩ ⟨f', one', r', b'⟩ :=
    ⟨L.knows_mono h₁ hf, L.knows_mono h₁ hone, L.knows_mono h₁ hr, hb⟩
  refine L.bind (writeAdjust_lockstep L ho) fun w₂ h₂ _ _ _ => ?_
  refine L.bind (writeOverflow_lockstep L (ho.later L h₂) kind) fun w₃ h₃ _ _ _ => ?_
  exact writeResultFlags_lockstep L (ho.later L (L.trans h₂ h₃)).result hb

theorem neg_lockstep : S.BothWrite w neg S.nothing := by
  refine L.writesOperand 0 fun dst hdst => ?_
  refine (L.read hdst.source (hdst.at hr₀)).then fun f f' hf => ?_
  refine (L.unary .neg hf).then fun r r' hr => ?_
  refine L.bind (L.keep _ (hdst.at ht) (hdst.at hwhole) hr) fun w₁ h₁ b b' hb => ?_
  have hf₁ := L.knows_mono h₁ hf
  have hr₁ := L.knows_mono h₁ hr
  refine (L.arith .xor hf₁ hr₁).then fun changed changed' hchanged => ?_
  refine (adjust_lockstep L hchanged).then fun a a' ha => ?_
  refine L.bind (writeFlag_lockstep L _ ha hb) fun w₂ h₂ _ _ _ => ?_
  have hf₂ := L.knows_mono h₂ hf₁
  have hr₂ := L.knows_mono h₂ hr₁
  rw [← L.width_eq hf]
  refine (L.zero (S.level w dst) (L.width_range hf)).then fun zero zero' hzero => ?_
  refine (L.compare .ne hf₂ hzero).then fun c c' hc => ?_
  refine L.bind (writeFlag_lockstep L _ hc hb) fun w₃ h₃ _ _ _ => ?_
  have hr₃ := L.knows_mono h₃ hr₂
  refine (L.arith .and hr₃ (L.knows_mono h₃ hf₂)).then fun both both' hboth => ?_
  refine (L.sign hboth).then fun o o' ho => ?_
  refine L.bind (writeFlag_lockstep L _ ho hb) fun w₄ h₄ _ _ _ => ?_
  exact writeResultFlags_lockstep L (L.knows_mono h₄ hr₃) hb

theorem bswap_lockstep : S.BothWrite w bswap S.nothing := by
  refine L.writesOperand 0 fun dst hdst => ?_
  refine (L.read hdst.source (hdst.at hr₀)).then fun f f' hf => ?_
  refine (L.sideBySide.mapM _ fun i _ => L.extract _ _ hf).then fun fs fs' hfs => ?_
  refine (L.concatMany hfs).then fun r r' hr => ?_
  exact Laws.dropAnswer L.toWords (L.keep _ (hdst.at ht) (hdst.at hwhole) hr)

end

/-- Inverts every bit of a destination, which keeps its taint. -/
def complement (dst : Operand) : Step Unit := do
  let operand ← Step.read dst
  let result ← Build.not operand
  discard (assign dst result "NOT operation" (isTainted dst))

theorem complement_lockstep {dst : Operand} (hsource : S.source dst) (ht : S.target dst)
    (hwhole : S.whole w dst) (hlegible : S.legible w dst) :
    S.BothWrite w (complement dst) S.nothing := by
  refine (L.read hsource hlegible).then fun f f' hf => ?_
  refine (L.unary .not hf).then fun r r' hr => ?_
  exact Laws.dropAnswer L.toWords (L.keep _ ht hwhole hr)

theorem not_lockstep (h : S.At w 0 fun dst => S.source dst →
      S.BothWrite w (complement dst) S.nothing) : S.BothWrite w not S.nothing := by
  refine L.writesOperand 0 fun dst hdst => ?_
  exact hdst.at h hdst.source

/-! Conditions. -/

theorem signedLess_lockstep (ids : List Nat) (hsf : sf ∈ ids) (hof : of ∈ ids) :
    S.BothRead w signedLess (S.knows w (S.levelAny w ids)) := by
  refine (L.readAmong ids hsf).bind fun sign sign' hsign => ?_
  exact (L.readAmong ids hof).bind fun o o' ho => L.arith .xor hsign ho

theorem FlagTest.formula_lockstep (test : FlagTest) :
    S.BothRead w test.formula (S.knows w (S.levelAny w test.flags)) := by
  cases test with
  | overflow | below | equal | sign | parity => exact L.readAmong _ (by decide)
  | belowOrEqual =>
    refine (L.readAmong [cf, zf] (by decide)).bind fun c c' hc => ?_
    exact (L.readAmong [cf, zf] (by decide)).bind fun z z' hz => L.arith .or hc hz
  | less => exact signedLess_lockstep L _ (by decide) (by decide)
  | lessOrEqual =>
    refine (signedLess_lockstep L [zf, sf, of] (by decide) (by decide)).bind fun f f' hf => ?_
    exact (L.readAmong [zf, sf, of] (by decide)).bind fun z z' hz => L.arith .or hz hf

/-- A condition is tainted as far as its flags are. -/
theorem Condition.readLevel_lockstep (c : Condition) :
    S.BothRead w c.read fun p p' => S.knows w (S.levelAny w c.test.flags) p.1 p'.1 ∧
      S.taint (S.levelAny w c.test.flags) p.2 p'.2 := by
  have hformula : S.BothRead w c.formula (S.knows w (S.levelAny w c.test.flags)) := by
    refine (c.test.formula_lockstep L).bind fun f f' hf => ?_
    exact .ite (fun _ => L.unary .not hf) fun _ => .pure hf
  refine hformula.bind fun f f' hf => ?_
  exact (L.anyRegisterTainted _).bind fun b b' hb => .pure ⟨hf, hb⟩

/-! Transfers. -/

section

variable (ht : S.At w 0 S.target)

include ht

theorem mov_lockstep (hr₁ : S.Legible w 1) : S.BothWrite w mov S.nothing := by
  refine L.writesOperand 0 fun dst hdst => ?_
  refine L.writesOperand 1 fun src hsrc => ?_
  refine (L.readSized (L.source_range hdst.source) hsrc.source (hsrc.at hr₁)).then fun f f' hf => ?_
  exact L.move _ (hdst.at ht) hf

theorem extend_lockstep (hr₁ : S.Legible w 1) (signed : Bool) :
    S.BothWrite w (extend signed) S.nothing := by
  refine L.writesOperand 0 fun dst hdst => ?_
  refine L.writesOperand 1 fun src hsrc => ?_
  refine (L.read hsrc.source (hsrc.at hr₁)).then fun f f' hf => ?_
  cases signed with
  | false =>
    refine (L.zeroExtend _ hf).then fun r r' hr => ?_
    exact L.move _ (hdst.at ht) hr
  | true =>
    refine (L.signExtend _ hf).then fun r r' hr => ?_
    exact L.move _ (hdst.at ht) hr

theorem lea_lockstep : S.BothWrite w lea S.nothing := by
  refine L.writesOperand 0 fun dst hdst => ?_
  refine L.writesOperand 1 fun src hsrc => ?_
  cases src with
  | immediate | register => exact L.refuseWrites fun _ => rfl
  | memory access =>
    refine (L.effectiveAddress hsrc.source).then fun a a' ha => ?_
    refine (L.resize _ ha).then fun f f' hf => ?_
    exact Laws.dropAnswer L.toWords (L.assign _
      (fun p => p.taint.isOptional access.base || p.taint.isOptional access.index)
      (fun p => p.taint.isOptional access.base || p.taint.isOptional access.index)
      (fun _ => rfl) (fun _ => rfl) (hdst.at ht) hf fun _ _ hst => L.addressTaint hst access)

theorem xchg_lockstep (ht' : S.At w 1 S.target) (hr : LegiblePair S w) :
    S.BothWrite w xchg S.nothing := by
  refine (readPair_lockstep L hr).then fun p p' hp => ?_
  rw [← hp.dst.eq, ← hp.src.eq]
  refine (L.isTainted _).then fun b b' hb => ?_
  refine (L.isTainted _).then fun c c' hc => ?_
  exact L.exchange _ (hp.dst.at ht) (hp.src.at ht') hp.right hp.left hc hb

theorem setIf_lockstep (c : Condition) : S.BothWrite w (setIf c) S.nothing := by
  refine (c.readLevel_lockstep L).then fun p p' hp => ?_
  refine L.writesOperand 0 fun dst hdst => ?_
  refine (L.zeroExtend _ hp.1).then fun r r' hr => ?_
  exact L.put _ (hdst.at ht) hr hp.2

theorem moveIf_lockstep (hr : LegiblePair S w) (c : Condition) :
    S.BothWrite w (moveIf c) S.nothing := by
  refine (c.readLevel_lockstep L).then fun q q' hq => ?_
  refine (readPair_lockstep L hr).then fun p p' hp => ?_
  refine (L.select hq.1 hp.right hp.left).then fun r r' hr => ?_
  rw [← hp.dst.eq, ← hp.src.eq]
  intro s t hst
  -- the source counts only where it is moved, so its taint is gated by the condition
  obtain ⟨k, hknows, htaint⟩ := hr s t hst hq.2 (L.isOperand hst p.src) (L.isOperand hst p.dst)
  exact L.put "CMOVcc operation" (hp.dst.at ht) hknows htaint s t hst

end

theorem widen_lockstep (ht : S.TargetId target) :
    S.BothWrite w (widen source target) S.nothing := by
  refine (L.register target).then fun dst dst' hdst => ?_
  obtain ⟨rfl, -⟩ := hdst
  refine (L.readRegisterId source).then fun f f' hf => ?_
  refine (L.signExtend _ hf).then fun r r' hr => ?_
  refine (L.isRegisterTainted source).then fun b b' hb => ?_
  exact L.writeRegister _ _ ht hr hb

theorem spread_lockstep (ht : S.TargetId target) :
    S.BothWrite w (spread source target) S.nothing := by
  refine (L.readRegisterId source).then fun f f' hf => ?_
  rw [← L.width_eq hf]
  refine (L.signExtend _ hf).then fun e e' he => ?_
  refine (L.minus fun hs => (L.width_range hf hs).1.trans (by omega)).then fun top top' htop => ?_
  subst htop
  refine (L.extract _ _ he).then fun r r' hr => ?_
  refine (L.isRegisterTainted source).then fun b b' hb => ?_
  exact L.writeRegister _ _ ht hr hb

theorem setFlag_lockstep (flag : ControlFlag) (value : Bool) :
    S.BothWrite w (setFlag flag value) S.nothing := by
  have hflag : flag.register ∈ [af, cf, df, interruptFlag, of, pf, sf, zf] := by
    cases flag <;> decide
  refine (L.flag false value).then fun f f' hf => ?_
  exact writeFlag_lockstep L _ hf L.taint_false hflag

theorem complementCarry_lockstep : S.BothWrite w complementCarry S.nothing := by
  refine (L.readRegisterId cf).then fun c c' hc => ?_
  refine (L.unary .not hc).then fun f f' hf => ?_
  refine (L.isRegisterTainted cf).then fun b b' hb => ?_
  exact writeFlag_lockstep L _ hf hb

end

end Concolic.X86
