import Concolic.Proofs.Lockstep.AArch64
import Concolic.Proofs.Lockstep.Run
import Concolic.Proofs.Lockstep.X86.Semantics

/-
  A run in lockstep with itself.

  Where the two frames of a simulation are one, and so are the formulas and the taints that
  correspond, what lockstep says of two runs is said of one. Of its laws (`Diagonal`) only
  those of the primitive parts are left to show; the rest follow (`Diagonal.laws`,
  `Diagonal.covers`), and with them every operation (`Diagonal.action`).
-/

namespace Concolic.Simulation

open Formula (WordWidth)

/-- The laws of a run in lockstep with itself. What may be named may be read. -/
structure Diagonal (S : Simulation) : Prop extends Reading S where
  same : ∀ {w s t}, S.frames w s t → s = t
  equal : ∀ {w l f g}, S.knows w l f g → f = g
  lower : ∀ {w l f g}, S.knows w l f g → S.knows w false f g
  level : ∀ w op, S.level w op = false
  taint : ∀ {l b b'}, S.taint l b b' ↔ b = b'
  legible : ∀ {w op}, S.source op → S.legible w op
  slot : ∀ address bits, (S.sure → WordWidth bits) → S.source (X86.slotAt S address bits)
  set : ∀ {w l dst f} (comment : String) (b : Bool), S.target dst → S.knows w l f f →
    S.Writes w (Step.assign dst f comment (Step.setTaint dst b))
      (Step.assign dst f comment (Step.setTaint dst b)) fun _ b b' => b = b'
  keep : ∀ {w l dst f} (comment : String), S.target dst → S.whole w dst → S.knows w l f f →
    S.Writes w (Step.assign dst f comment (Step.isTainted dst))
      (Step.assign dst f comment (Step.isTainted dst)) fun _ b b' => b = b'
  exchange : ∀ {w l m dst src f g} (comment : String) (b c : Bool), S.target dst →
    S.target src → S.knows w l f f → S.knows w m g g →
    S.Writes w (Step.exchange dst src f g comment b c) (Step.exchange dst src f g comment b c)
      S.nothing
  volatile : ∀ {w l f} (comment : String) (b : Bool), S.knows w l f f →
    S.Writes w (Step.volatile f comment b) (Step.volatile f comment b) S.nothing
  unknownValue : ∀ {w reg}, S.arch.Has reg →
    S.Writes w (Step.unknownValue reg) (Step.unknownValue reg) fun w => S.knows w true
  advanceTo : ∀ {w} (next : Address),
    S.Ends w (Step.setNext false false next) (Step.setNext false false next)
  arrive : ∀ {w l f} (conditional : Bool), S.knows w l f f →
    f.width = S.arch.programCounter.bits →
    S.Ends w (Step.arrive f conditional) (Step.arrive f conditional)

/-- What the operation of an opcode asks of its operands beyond their widths. -/
structure Fits (S : Simulation) (w : S.World) (opcode : Nat) : Prop where
  noFlag : S.arch.isX86 = true → ∀ op, X86.operation? opcode = some op → op.shifts = true →
    S.At w 0 X86.NoFlag
  ret : S.arch.isX86 = true → X86.operation? opcode = some .ret → S.At w 0 X86.ShortReturn
  movz : S.arch = .aarch64 → AArch64.operation? opcode = some .movz → S.At w 2 AArch64.ShortShift

/-- What the operation of an opcode asks of the operands that it writes. -/
structure Opens (S : Simulation) (w : S.World) (opcode : Nat) : Prop where
  target : S.arch.isX86 = true → ∀ {op}, S.source op → S.target op
  whole : S.arch.isX86 = true → ∀ op, X86.operation? opcode = some op → op.rereads = true →
    S.At w 0 (S.whole w)
  explicit : S.arch = .aarch64 → ∀ op, AArch64.operation? opcode = some op →
    ∀ i, op.explicitTarget = some i → S.At w i S.target

namespace Diagonal

variable {S : Simulation} (D : S.Diagonal) {w : S.World}

include D

theorem isOn (mode : Mode) : S.BothRead w (Step.isOn mode) (· = ·) :=
  .look fun s t h => by rw [D.same h]

theorem laws : S.Laws where
  toReading := D.toReading
  level_parent _ _ _ := by rw [D.level, D.level]
  taint_false := D.taint.2 rfl
  taint_or h h' := D.taint.2 (by rw [D.taint.1 h, D.taint.1 h'])
  isOperand h op := D.taint.2 (by rw [D.same h])
  select hc hf hg := by
    refine (D.ite (D.lower hc) (D.lower hf) (D.lower hg)).mono
      fun r r' hr s t hst a a' b b' d d' ha hb hd => ⟨false, hr, D.taint.2 ?_⟩
    rw [D.same hst, D.equal hc, D.taint.1 ha, D.taint.1 hb, D.taint.1 hd]
  set comment hdst hf hb := by
    obtain rfl := D.equal hf
    obtain rfl := D.taint.1 hb
    exact (D.set comment _ hdst hf).mono fun _ _ _ h => D.taint.2 h
  keep comment hdst hwhole hf := by
    obtain rfl := D.equal hf
    exact (D.keep comment hdst hwhole hf).mono fun _ _ _ h => D.taint.2 h
  restore comment hreg hroot hzero hf hb := by
    obtain rfl := D.equal hf
    obtain ⟨s, t, hst, rfl, rfl⟩ := hb
    obtain rfl := D.same hst
    exact (D.set comment _ (D.target_root hreg hroot hzero) hf).mono
      fun _ _ _ _ _ => by rw [D.level, D.level]
  exchange comment hdst hsrc hf hg hb hc := by
    obtain rfl := D.equal hf
    obtain rfl := D.equal hg
    obtain rfl := D.taint.1 hb
    obtain rfl := D.taint.1 hc
    exact D.exchange comment _ _ hdst hsrc hf hg
  volatile comment hf hb := by
    obtain rfl := D.equal hf
    obtain rfl := D.taint.1 hb
    exact D.volatile comment _ hf

theorem flat : S.Flat := fun h => D.taint.2 (D.taint.1 h)

theorem covers : S.Covers where
  undefine hid := D.laws.ifUndefined (D.isOn _) (D.laws.forget D.unknownValue hid (D.taint.2 rfl))
  undefineUnless _ hid hf _ := D.laws.ifUndefined (D.isOn _)
    (D.laws.forgetUnless D.unknownValue hid hf (· = ·) (fun hf => D.laws.evaluated (D.lower hf))
      fun hn hb => D.taint.2 (by rw [hn, D.taint.1 hb]))
  advanceTo := D.advanceTo
  arrive conditional hf hwidth := by
    obtain rfl := D.equal hf
    exact D.arrive conditional hf hwidth

/-- Where what may be named may be written and keeps its taint, every operation can. -/
theorem opens (htarget : ∀ {op}, S.source op → S.target op) (hwhole : ∀ op, S.whole w op)
    (opcode : Nat) : S.Opens w opcode where
  target _ := htarget
  whole _ _ _ _ _ _ dst _ _ := hwhole dst
  explicit _ _ _ i _ := .of_source D.laws htarget i

theorem stackOpen {op : X86.Op} (htarget : ∀ {op}, S.source op → S.target op)
    (hshort : op = .ret → S.sure → S.At w 0 X86.ShortReturn) :
    X86.StackOpen S w op := by
  have hpointer := D.laws.readRegister (w := w) (D.source_register S.arch.stackPointer_has)
  rw [D.level] at hpointer
  refine .of_pointer D.laws hpointer (fun address bits hw => D.legible (D.slot address bits hw))
    (fun address => htarget (D.slot _ _ fun _ => S.arch.addressWidth_range))
    (fun src address hsrc _ => htarget (D.slot _ _ (D.source_range hsrc))) hshort

theorem rotationCount : X86.SameCount S w :=
  .of_value D.laws (.of_source D.laws D.legible 1) (D.isOn _) D.lower D.flat

/-- Every operation keeps what its parts keep. -/
theorem action {opcode : Nat} (h : S.sure → S.Fits w opcode) (ho : S.Opens w opcode)
    {act : Step (Option Fault)} (hact : S.arch.semantics? opcode = some act) : S.BothEnd w act := by
  obtain ⟨op, hx86, hop, rfl⟩ | ⟨op, haarch64, hop, rfl⟩ := semantics?_cases hact
  · refine X86.Op.execute_alike D.laws (.of_flat D.laws D.covers D.flat D.legible
      (ho.target hx86) (ho.whole hx86 op hop)
      (fun _ => D.stackOpen (ho.target hx86) fun hret hs => ?_) (fun _ => D.rotationCount)
      fun hshifts hs => (h hs).noFlag hx86 op hop hshifts) D.covers hx86 (D.level w)
    exact (h hs).ret hx86 (hret ▸ hop)
  · exact AArch64.Op.execute_ends D.laws D.covers (.of_flat D.laws D.flat D.legible
      (ho.explicit haarch64 op hop) fun hs hmovz => (h hs).movz haarch64 (hmovz ▸ hop))

end Diagonal

end Concolic.Simulation
