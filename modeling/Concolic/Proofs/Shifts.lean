import Concolic.Proofs.Arithmetic
import Concolic.Proofs.BitMoves
import Concolic.Proofs.FreshVariables

/-
  Shifts and rotations.

  The operations that move bits leave in their destination and in the carry flag what as
  many moves by one place leave as the count says, modulo 64 or 32. The other status
  flags follow from the moves too (`X86.Motion.status`), and a count of zero changes
  nothing.
-/

namespace Concolic

open View Word Step Instruction Build Operand Machine ArithOp Engine X86

variable {width : Nat} {dst : Operand}

namespace X86

/-- How many places a count is for: its low six bits, or five in a word of another width
than 64. -/
def places (width count : Nat) : Nat := count % 2 ^ (if width = 64 then 6 else 5)

theorem and_countMask (width count : Nat) : count &&& countMask width = places width count := by
  unfold countMask places
  split
  · exact Nat.and_two_pow_sub_one_eq_mod count 6
  · exact Nat.and_two_pow_sub_one_eq_mod count 5

theorem places_lt (hwide : 8 ≤ width) (hw : width ≤ limit) (count : Nat) :
    places width count < modulus width := by
  have hle : (if width = 64 then 6 else 5) ≤ width := by split <;> omega
  rw [modulus_eq hw]
  exact lt_of_lt_of_le (Nat.mod_lt _ (Nat.two_pow_pos _)) (Nat.pow_le_pow_right (by omega) hle)

theorem places_one (width : Nat) : places width 1 = 1 := by
  unfold places
  split <;> rfl

end X86

/-- The value of the count of a shift: one if it is missing. -/
def Instruction.countValue (inst : Instruction) (arch : Architecture) (m : Machine) :
    Option Operand → Nat
  | none => 1
  | some (.immediate imm) => imm.value.toNat
  | some op => inst.operandValue arch m op.bits op

namespace X86.Motion

def op : Motion → Op
  | shift kind => .shift kind
  | rotate left => .rotate left

def rotates : Motion → Bool
  | shift _ => false
  | rotate _ => true

/-- The status flags after so many places. -/
def status (kind : Motion) (width a n : Nat) (old : Status) : Status :=
  let result := ((kind.step width)^[n] (a, old.carry)).1
  let kept := kind.rotates || n == 0
  { adjust := old.adjust
    carry := ((kind.step width)^[n] (a, old.carry)).2
    overflow := if n = 1 then kind.changesSign width a else old.overflow
    parity := if kept then old.parity else evenParity result
    sign := if kept then old.sign else result.testBit (width - 1)
    zero := if kept then old.zero else result == 0 }

/-- The flags that the operation writes, in the order of their writes. -/
def writes (kind : Motion) (st : Status) : List (Nat × Bool) :=
  [(cf, st.carry), (of, st.overflow)] ++ if kind.rotates then [] else resultWrites st

def action : Motion → Step Unit
  | shift kind => X86.shift kind
  | rotate left => X86.rotate left

theorem execute_op (kind : Motion) : kind.op.execute = complete kind.action := by
  cases kind <;> rfl

def after (kind : Motion) (arch : Architecture) (dst : Operand) (width a n : Nat) (m : Machine) :
    Machine :=
  (m.store arch dst (kind.arith.apply width a n)).setFlags arch
    (kind.writes (kind.status width a n (X86.status arch m)))

/-- The operands suit the operation: a place of `width` bits, and a count of any width, if
there is one. -/
structure Takes (arch : Architecture) (width : Nat) (operands : List Operand) (dst : Operand) :
    Prop where
  first : operands[0]? = some dst
  target : dst.Target arch width
  count : ∀ op, operands[1]? = some op → op.immediate? = none →
    op.Fits arch op.bits ∧ Formula.WordWidth op.bits

end X86.Motion

namespace View.Forms

variable {V : View} {rules : Rules} {c f g : Formula} {width a n : Nat}

theorem iteFlag {holds x y : Bool} (hc : V.Gives c 1 holds.toNat) (hf : V.Gives f 1 x.toNat)
    (hg : V.Gives g 1 y.toNat) : V.Forms rules (Build.ite c f g) 1 (if holds then x else y).toNat :=
  (ite hc hf hg).of_eq rfl (by cases holds <;> rfl)

theorem lastOut (kind : Shift) (hf : V.Gives f width a) (hcount : V.Gives c width n)
    (hone : V.Gives g width 1) :
    V.Forms rules (kind.lastOut f c g) width (kind.lastWord width a n) := by
  cases kind with
  | left =>
    have hwidth : truncate width width = width := truncate_of_lt (width_lt_modulus hf.width_range.2)
    unfold Shift.lastOut
    rw [hf.width_eq]
    refine (constant (V := V) hf.width_range width).bind fun whole hwhole => ?_
    rw [hwidth] at hwhole
    exact (arith hwhole .sub hcount).bind fun rest hrest => arith hf .lshr hrest
  | logicalRight => exact (arith hcount .sub hone).bind fun less hless => arith hf .lshr hless
  | arithmeticRight => exact (arith hcount .sub hone).bind fun less hless => arith hf .ashr hless

theorem xorFlag {x y : Bool} (hf : V.Gives f 1 x.toNat) (hg : V.Gives g 1 y.toNat) :
    V.Forms rules (xor f g) 1 (x ^^ y).toNat :=
  (arith hf .xor hg).of_eq rfl (by cases x <;> cases y <;> rfl)

theorem signChange (kind : Shift) (hf : V.Gives f width a) (hwide : 2 ≤ width) :
    V.Forms rules (kind.overflow f) 1 (kind.signChange width a).toNat := by
  cases kind with
  | left =>
    unfold Shift.overflow
    rw [hf.width_eq, minus_of_le hwide]
    refine (sign hf).bind fun top htop => ?_
    exact (bit hf (by omega)).bind fun next hnext => xorFlag htop hnext
  | logicalRight => exact sign hf
  | arithmeticRight => exact flag false

/-- The carry and overflow flags of a rotation, by bits of its result. -/
theorem rotationFlags (left : Bool) (hf : V.Gives f width a) (hwide : 2 ≤ width) :
    Makes rules True (X86.rotationFlags left f) fun p =>
      V.Gives p.1 1 (a.testBit (if left then 0 else width - 1)).toNat ∧
      V.Gives p.2 1 (a.testBit (width - 1) ^^ a.testBit (if left then 0 else width - 2)).toNat := by
  cases left with
  | true =>
    refine Makes.bind (bit hf (by omega : 0 < width)) fun low hlow => ?_
    refine Makes.bind (sign hf) fun high hhigh => ?_
    exact Makes.bind (xorFlag hhigh hlow) fun differ hdiffer => .pure ⟨hlow, hdiffer⟩
  | false =>
    unfold X86.rotationFlags
    rw [if_neg Bool.false_ne_true, hf.width_eq, minus_of_le hwide]
    refine Makes.bind (sign hf) fun high hhigh => ?_
    rw [pure_bind]
    refine Makes.bind (bit hf (by omega)) fun next hnext => ?_
    exact Makes.bind (xorFlag hhigh hnext) fun differ hdiffer => .pure ⟨hhigh, hdiffer⟩

end View.Forms

/-! The status of a motion, by what its formulas compute. -/

namespace X86.Motion

variable {width a n : Nat} (hwide : 8 ≤ width) (hw : width ≤ limit)
  (ha : a < modulus width) (old : Status)

include hwide hw ha

theorem status_shift (kind : Shift) (hn : n < modulus width) :
    (shift kind).status width a n old =
      { adjust := old.adjust
        carry := if n == 0 then old.carry else (kind.lastWord width a n).testBit 0
        overflow := if n == 1 then kind.signChange width a else old.overflow
        parity := if n == 0 then old.parity else evenParity (kind.op.apply width a n)
        sign := if n == 0 then old.sign else (kind.op.apply width a n).testBit (width - 1)
        zero := if n == 0 then old.zero else kind.op.apply width a n == 0 } := by
  have hpos : 1 ≤ width := by omega
  have hcarry : (if n = 0 then old.carry
      else (shift kind).out width ((shift kind).arith.apply width a (n - 1))) =
        if n = 0 then old.carry else (kind.lastWord width a n).testBit 0 := by
    by_cases hzero : n = 0
    · rw [if_pos hzero, if_pos hzero]
    · rw [if_neg hzero, if_neg hzero, Shift.testBit_lastWord hpos hw ha kind hzero hn]
      rfl
  simp only [status, iterate_step hpos hw ha, hcarry,
    Shift.changesSign_shift hpos hw ha (by omega), rotates, Bool.false_or, beq_iff_eq]
  rfl

theorem status_rotate (left : Bool) :
    (rotate left).status width a n old =
      { old with
        carry := if n == 0 then old.carry
          else ((rotate left).arith.apply width a n).testBit (if left then 0 else width - 1)
        overflow := if n == 1 then ((rotate left).arith.apply width a n).testBit (width - 1) ^^
            ((rotate left).arith.apply width a n).testBit (if left then 0 else width - 2)
          else old.overflow } := by
  have hpos : 1 ≤ width := by omega
  have hcarry : (if n = 0 then old.carry
      else (rotate left).out width ((rotate left).arith.apply width a (n - 1))) =
        if n = 0 then old.carry
        else ((rotate left).arith.apply width a n).testBit (if left then 0 else width - 1) := by
    by_cases hzero : n = 0
    · rw [if_pos hzero, if_pos hzero]
    · rw [if_neg hzero, if_neg hzero, out_rotate hpos hw ha left hzero]
  have hoverflow : (if n = 1 then (rotate left).changesSign width a else old.overflow) =
      if n = 1 then ((rotate left).arith.apply width a n).testBit (width - 1) ^^
        ((rotate left).arith.apply width a n).testBit (if left then 0 else width - 2)
      else old.overflow := by
    by_cases hone : n = 1
    · rw [if_pos hone, if_pos hone, changesSign_rotate hpos hw ha (by omega), hone]
    · rw [if_neg hone, if_neg hone]
  simp only [status, iterate_step hpos hw ha, hcarry, hoverflow, rotates, Bool.true_or, if_true,
    beq_iff_eq]

end X86.Motion

/-! Runs. -/

namespace Scene

open X86 (Motion)

variable {S : Scene} {m : Machine} {dst : Operand} {width : Nat} (hwide : 8 ≤ width)
  (hlim : width ≤ limit) (htakes : Motion.Takes S.arch width S.code.operands dst)

theorem Runs.operand? (i : Nat) : S.Runs m (operand? i) m (· = S.code.operands[i]?) :=
  look fun s hs => by rw [hs.operands]

include hwide hlim htakes

theorem Runs.shiftCount : S.Runs m (shiftCount width) m fun p => S.view.Gives p.1 width
    (X86.places width (S.code.countValue S.arch m S.code.operands[1]?)) := by
  have hrange : Formula.WordWidth width := ⟨by omega, hlim⟩
  refine (operand? 1).bind_eq ?_
  have hread : ∀ op, S.code.operands[1]? = some op → op.immediate? = none → S.Runs m (do
      let value ← Step.read op
      let count ← resize value width
      let mask ← constant (countMask width) width
      let masked ← and count mask
      return (masked, ← Step.isTainted op)) m fun p => S.view.Gives p.1 width
        (X86.places width (S.code.operandValue S.arch m op.bits op)) := by
    intro op hop hplace
    obtain ⟨hfits, hbits⟩ := htakes.count op hop hplace
    refine (read hfits rfl hbits).bind fun value hvalue => ?_
    refine form (.resize hvalue hrange) fun count hcount => ?_
    refine form (.constant hrange _) fun mask hmask => ?_
    refine form (.arith hcount .and hmask) fun masked hmasked => ?_
    refine (isTainted op).bind fun _ _ => pure ?_
    rw [apply, Word.and, truncate_bitwise Nat.testBit_and, and_countMask,
      truncate_of_lt (places_lt hwide hlim _)] at hmasked
    exact hmasked
  cases hop : S.code.operands[1]? with
  | none =>
    refine form (.constant hrange 1) fun one hone => pure ?_
    rw [truncate_one hrange] at hone
    rw [countValue, places_one]
    exact hone
  | some op =>
    cases op with
    | immediate imm =>
      refine form (.constant hrange _) fun count hcount => pure ?_
      rw [and_countMask, truncate_of_lt (places_lt hwide hlim _)] at hcount
      exact hcount
    | register reg => exact hread _ hop rfl
    | memory access => exact hread _ hop rfl

theorem Runs.rotationCount : S.Runs m (rotationCount width) m fun p => S.view.Gives p.1 width
    (X86.places width (S.code.countValue S.arch m S.code.operands[1]?)) := by
  refine (shiftCount hwide hlim htakes).bind fun p hp => ?_
  refine (isOn _).bind fun on _ => ?_
  cases on with
  | true => exact pure hp
  | false =>
    refine (evaluate hp).bind_eq ?_
    refine form (.constant ⟨by omega, hlim⟩ _) fun count hcount => pure ?_
    rw [truncate_of_lt (places_lt hwide hlim _)] at hcount
    exact hcount

variable (hx86 : S.arch.isX86 = true) (hsteady : dst.memory? = none ∨ S.Steady)

include hx86 hsteady

theorem Runs.rotate (left : Bool) :
    S.Moves m (X86.rotate left) ((Motion.rotate left).after S.arch dst width
      (S.code.operandValue S.arch m width dst)
      (X86.places width (S.code.countValue S.arch m S.code.operands[1]?)) m) := by
  have hrange : Formula.WordWidth width := ⟨by omega, hlim⟩
  have hflag : ∀ id ∈ statusFlags, S.arch.isFlag id = true := fun id => isFlag hx86
  refine (operand htakes.first).bind_eq ?_
  rw [htakes.target.bits]
  refine (read htakes.target.1 htakes.target.bits hrange).bind fun value hvalue => ?_
  refine (rotationCount hwide hlim htakes).bind fun p hcount => ?_
  have hstatus := Motion.status_rotate hwide hlim hvalue.lt (X86.status S.arch m) left
    (n := X86.places width (S.code.countValue S.arch m S.code.operands[1]?))
  unfold Motion.after
  rw [hstatus]
  refine form (.arith hvalue (Motion.rotate left).arith hcount) fun result hresult => ?_
  refine (readFlag (hflag cf (by decide))).bind fun oldCarry holdCarry => ?_
  refine (readFlag (hflag of (by decide))).bind fun oldOverflow holdOverflow => ?_
  refine (assign htakes.target hresult hsteady _ ?_).bind fun tainted _ => ?_
  · exact fun _ => ⟨_, _, rfl⟩
  refine form (.isZero hcount) fun unmoved hunmoved => ?_
  refine form (.constant hrange 1) fun one hone => ?_
  rw [truncate_one hrange] at hone
  refine form (.compare hcount .eq hone) fun single hsingle => ?_
  refine bind (of_makes fun _ _ => .build (Forms.rotationFlags left hresult (by omega))
    fun _ => rfl) fun p hp => ?_
  refine form (.iteFlag hunmoved holdCarry hp.1) fun carry hcarry => ?_
  refine form (.iteFlag hsingle hp.2 holdOverflow) fun overflow hoverflow => ?_
  refine (writeFlag (hflag cf (by decide)) hcarry _ _).seq ?_
  exact writeFlag (hflag of (by decide)) hoverflow _ _

/-- A shift leaves what its moves leave; the adjust flag is undefined, and keeps its
value. -/
theorem Leads.shift (kind : Shift) :
    S.Leads m (X86.shift kind) ((Motion.shift kind).after S.arch dst width
      (S.code.operandValue S.arch m width dst)
      (X86.places width (S.code.countValue S.arch m S.code.operands[1]?)) m)
      fun _ _ => True := by
  have hrange : Formula.WordWidth width := ⟨by omega, hlim⟩
  have hflag : ∀ id ∈ statusFlags, S.arch.isFlag id = true := fun id => isFlag hx86
  refine (Runs.operand htakes.first).then_eq ?_
  rw [htakes.target.bits]
  refine (Runs.read htakes.target.1 htakes.target.bits hrange).then fun value hvalue => ?_
  refine (Runs.shiftCount hwide hlim htakes).then fun p hcount => ?_
  have hstatus := Motion.status_shift hwide hlim hvalue.lt (X86.status S.arch m) kind hcount.lt
  unfold Motion.after
  rw [hstatus]
  refine form (.arith hvalue kind.op hcount) fun result hresult => ?_
  refine (Runs.readFlag (hflag cf (by decide))).then fun oldCarry holdCarry => ?_
  refine (Runs.readFlag (hflag of (by decide))).then fun oldOverflow holdOverflow => ?_
  refine (Runs.readFlag (hflag pf (by decide))).then fun oldParity holdParity => ?_
  refine (Runs.readFlag (hflag sf (by decide))).then fun oldSign holdSign => ?_
  refine (Runs.readFlag (hflag zf (by decide))).then fun oldZero holdZero => ?_
  refine (Runs.assign htakes.target hresult hsteady _ ?_).then fun tainted _ => ?_
  · exact fun _ => ⟨_, _, rfl⟩
  refine form (.constant hrange 1) fun one hone => ?_
  rw [truncate_one hrange] at hone
  refine form (.isZero hcount) fun unmoved hunmoved => ?_
  refine form (.compare hcount .eq hone) fun single hsingle => ?_
  refine form (.lastOut kind hvalue hcount hone) fun out hout => ?_
  refine form (.bit hout (by omega : 0 < width)) fun newCarry hnewCarry => ?_
  refine form (.iteFlag hunmoved holdCarry hnewCarry) fun carry hcarry => ?_
  refine form (.signChange kind hvalue (by omega)) fun newOverflow hnewOverflow => ?_
  refine form (.iteFlag hsingle hnewOverflow holdOverflow) fun overflow hoverflow => ?_
  refine form (.parity hresult hwide) fun newParity hnewParity => ?_
  refine form (.iteFlag hunmoved holdParity hnewParity) fun even heven => ?_
  refine form (.sign hresult) fun newSign hnewSign => ?_
  refine form (.iteFlag hunmoved holdSign hnewSign) fun sign hsign => ?_
  refine form (.isZero hresult) fun newZero hnewZero => ?_
  refine form (.iteFlag hunmoved holdZero hnewZero) fun zero hzero => ?_
  refine (undefineUnless (hflag af (by decide)) hunmoved).bind fun V _ hV _ => ?_
  -- the flags are written in a view that may have one variable more
  have hwrite : ∀ id ∈ statusFlags, ∀ {m : Machine} {f : Formula} {b : Bool} {comment : String}
      {tainted : Bool}, S.view.Gives f 1 b.toNat → (S.withView V).Runs m
        (writeRegister id f comment tainted) (m.setFlag S.arch id b) fun _ => True :=
    fun id hid _ _ _ _ _ hf => Runs.writeFlag (S := S.withView V) (hflag id hid) (hV.gives hf) _ _
  exact ((hwrite cf (by decide) hcarry).bind fun _ _ =>
    (hwrite of (by decide) hoverflow).bind fun _ _ =>
      (hwrite pf (by decide) heven).bind fun _ _ =>
        (hwrite sf (by decide) hsign).bind fun _ _ =>
          hwrite zf (by decide) hzero).leads

end Scene

/-! Whole instructions. -/

namespace X86.Motion

theorem writes_status (kind : Motion) (st : Status) :
    ∀ p ∈ kind.writes st, p.1 ∈ statusFlags := by
  cases kind <;> simp [writes, rotates, resultWrites, statusFlags]

section

variable {arch : Architecture} (hx86 : arch.isX86 = true) {m : Machine} {dst : Operand}
  {width : Nat} (hwide : 8 ≤ width) (htarget : dst.Target arch width)

include hx86 hwide htarget

theorem status_after (kind : Motion) (a n value : Nat) :
    X86.status arch ((kind.after arch dst width a n m).setRegister arch.programCounter value) =
      kind.status width a n (X86.status arch m) := by
  have hflag : ∀ id ∈ statusFlags, ∀ st result,
      ((m.store arch dst result).setFlags arch (kind.writes st)).flag arch id =
        (kind.writes st).foldl (fun v p => if p.1 = id then p.2 else v) (m.flag arch id) := by
    intro id hid st result
    rw [flag_setFlags (isFlag_writes hx86 (kind.writes_status st)) (isFlag hx86 hid),
      flag_store (isFlag hx86 hid) htarget (by omega)]
  rw [status_congr fun id hid => flag_setCounter (isFlag hx86 hid) _ _, after,
    status_eq fun id hid => hflag id hid _ _]
  cases kind <;> rfl

theorem operandValue_after (hlim : width ≤ limit) (hcounter : dst.isCounter arch = false)
    (inst : Instruction) (kind : Motion) (a n value : Nat) :
    inst.operandValue arch
        ((kind.after arch dst width a n m).setRegister arch.programCounter value) width dst =
      kind.arith.apply width a n := by
  rw [operandValue_setCounter inst hcounter, after,
    operandValue_setFlags inst (isFlag_writes hx86 (kind.writes_status _)) htarget.1 (by omega)]
  exact operandValue_store inst htarget hcounter (isZero_eq hx86 dst) hlim (apply_lt _ _ _ _)

end

theorem status_zero (kind : Motion) (width a : Nat) (old : Status) :
    kind.status width a 0 old = old := by
  simp [status]

/-- Turned around, a word is what it was. -/
theorem apply_rotate_mod (left : Bool) (width a n : Nat) :
    (rotate left).arith.apply width a (n % width) = (rotate left).arith.apply width a n := by
  cases left with
  | true =>
    show Word.rotate width a (n % width % width) = Word.rotate width a (n % width)
    rw [Nat.mod_mod]
  | false =>
    show Word.rotate width a ((width - n % width % width) % width) =
      Word.rotate width a ((width - n % width) % width)
    rw [Nat.mod_mod]

end X86.Motion

/-- How many places a shift or rotation of `width` bits moves its destination by. -/
def Instruction.places (inst : Instruction) (arch : Architecture) (m : Machine) (width : Nat) :
    Nat :=
  X86.places width (inst.countValue arch m (inst.operands[1]?.map (inst.placed arch m)))

/-- A shift or rotation completes, and leads to the machine that its moves say. -/
theorem X86.process_motion {e : Engine} {V : View} (hshows : V.Shows e) {inst : Instruction}
    (hops : ∀ op ∈ inst.operands, op.Resolves e.arch) (hx86 : e.arch.isX86 = true)
    (hwide : 8 ≤ width) (hlim : width ≤ limit) {kind : Motion}
    (hop : operation? inst.opcode = some kind.op)
    (htakes : Motion.Takes e.arch width inst.operands dst)
    (hsteady : dst.memory? = none ∨ ∀ v byte, V.admits v → V.admits { v with byte }) :
    ∃ s', process ⟨e, inst⟩ = .ok none s' ∧ s'.arch = e.arch ∧
      Alike e.arch ((kind.after e.arch (inst.placed e.arch e.machine dst) width
        (inst.argument e.arch e.machine width dst) (inst.places e.arch e.machine width)
        e.machine).past e.arch inst) s'.machine ∧ s'.engine.Coherent := by
  have hplaced : ∀ i : Nat, (e.scene V inst).code.operands[i]? =
      inst.operands[i]?.map (inst.placed e.arch e.machine) := fun i => List.getElem?_map
  have hscene : Motion.Takes (e.scene V inst).arch width (e.scene V inst).code.operands
      (inst.placed e.arch e.machine dst) := by
    refine ⟨?_, htakes.target.placed inst, fun op hop himm => ?_⟩
    · rw [hplaced, htakes.first, Option.map_some]
    · rw [hplaced] at hop
      obtain ⟨given, hgiven, rfl⟩ := Option.map_eq_some_iff.1 hop
      rw [immediate?_placed] at himm
      obtain ⟨hfits, hbits⟩ := htakes.count given hgiven himm
      rw [bits_placed]
      exact ⟨hfits.placed inst, hbits⟩
  have hsemantics : e.arch.semantics? inst.opcode = some (complete kind.action) := by
    rw [semantics?_x86 hx86, hop, Option.map_some, kind.execute_op]
  have hdst : (inst.placed e.arch e.machine dst).memory? = none ∨ (e.scene V inst).Steady :=
    hsteady.imp (memory?_placed inst) id
  refine process_leads hshows hsemantics hops (.complete ?_)
  unfold Instruction.places
  rw [← hplaced 1]
  cases kind with
  | shift kind => exact Scene.Leads.shift hwide hlim hscene hx86 hdst kind
  | rotate left => exact (Scene.Runs.rotate hwide hlim hscene hx86 hdst left).leads

/-- Shifts and rotations are moves by one place. In a coherent engine, a shift or rotation
by `n` places completes, and leaves in the destination and in the carry flag what `n`
moves leave; the other status flags follow from them. No places change nothing, and a
rotation goes around. Where the destination is memory, no formula may read the memory that
is written. -/
theorem motion_is_repeated_moves {e : Engine} (hcoherent : e.Coherent)
    (harray : e.modes.isOn .memoryArray = false) (hwhole : e.modes.isOn .alignedMemory = false)
    (hx86 : e.arch.isX86 = true) {inst : Instruction}
    (hops : ∀ op ∈ inst.operands, op.Resolves e.arch) {width : Nat} (hwide : 8 ≤ width)
    (hlim : width ≤ 128) {kind : Motion} (hop : operation? inst.opcode = some kind.op)
    {dst : Operand} (htakes : Motion.Takes e.arch width inst.operands dst)
    (hcounter : dst.isCounter e.arch = false) (hdst : dst.memory? = none ∨ e.Steady)
    {a n : Nat} (ha : inst.argument e.arch e.machine width dst = a)
    (hn : inst.places e.arch e.machine width = n) :
    ∃ s' result, Step.process ⟨e, inst⟩ = .ok none s' ∧
      inst.operandValue e.arch s'.machine width (inst.placed e.arch e.machine dst) = result ∧
      (result, s'.machine.flag e.arch cf) = (kind.step width)^[n] (a, e.machine.flag e.arch cf) ∧
      X86.status e.arch s'.machine = kind.status width a n (X86.status e.arch e.machine) ∧
      (n = 0 → result = a ∧
        X86.status e.arch s'.machine = X86.status e.arch e.machine) ∧
      ∀ left, kind = .rotate left →
        result = ((kind.step width)^[n % width] (a, e.machine.flag e.arch cf)).1 ∧
        (n ≠ 0 → s'.machine.flag e.arch cf = result.testBit (if left then 0 else width - 1)) := by
  have hpos : 1 ≤ width := by omega
  have hlt : a < Word.modulus width := ha ▸ inst.argument_lt htakes.target.1 ⟨hpos, hlim⟩ e.machine
  have hshows : (e.present hcoherent.bounded e.Steady).Shows e := hcoherent.shows id harray hwhole
  have htarget := htakes.target.placed (m := e.machine) inst
  obtain ⟨s', hrun, -, halike, -⟩ := process_motion hshows hops hx86 hwide hlim hop htakes
    (hdst.imp id fun hs => Engine.present_steady hs)
  rw [ha, hn] at halike
  have hstatus : X86.status e.arch s'.machine =
      kind.status width a n (X86.status e.arch e.machine) := by
    rw [← status_congr fun id _ => halike.flag id]
    exact Motion.status_after hx86 hwide htarget kind a n _
  have hcarry : s'.machine.flag e.arch cf =
      ((kind.step width)^[n] (a, e.machine.flag e.arch cf)).2 := congrArg Status.carry hstatus
  refine ⟨s', kind.arith.apply width a n, hrun, ?_, ?_, hstatus, ?_, ?_⟩
  · rw [← halike.operandValue inst htarget.1]
    exact Motion.operandValue_after hx86 hwide htarget hlim
      ((Operand.isCounter_placed inst).trans hcounter) inst kind a n _
  · rw [hcarry, Motion.iterate_step hpos hlim hlt]
  · rintro rfl
    exact ⟨Motion.apply_zero hlim hlt kind, hstatus.trans (kind.status_zero width a _)⟩
  · rintro left rfl
    rw [hcarry, Motion.iterate_step hpos hlim hlt, Motion.iterate_step hpos hlim hlt]
    refine ⟨(Motion.apply_rotate_mod left width a n).symm, fun hne => ?_⟩
    rw [if_neg hne]
    exact Motion.out_rotate hpos hlim hlt left hne

def shiftByte : Instruction :=
  .decoded 0x400007 7 92 [.memory (.fixed 0x1000 8), .register accumulatorByte] ""

theorem shiftByte_resolves (arch : Architecture) :
    ∀ op ∈ shiftByte.operands, op.Resolves arch := addByte_resolves arch

theorem shiftByte_takes : Motion.Takes .x86_64 8 shiftByte.operands
    (.memory (.fixed 0x1000 8)) := by
  refine ⟨rfl, ⟨⟨rfl, rfl⟩, rfl⟩, fun op hop _ => ?_⟩
  obtain rfl : .register accumulatorByte = op := Option.some.inj hop
  exact ⟨⟨accumulatorByte_has, rfl⟩, by decide +kernel⟩

/-- A byte that is a variable, shifted out as a whole by a count that is one too: the last
bit to leave is its lowest. -/
theorem motion_is_repeated_moves_shiftByte :
    ∃ s', Step.process ⟨symbolicBytes 0x81 0x28, shiftByte⟩ = .ok none s' ∧
      shiftByte.operandValue .x86_64 s'.machine 8 (.memory (.fixed 0x1000 8)) = 0 ∧
      X86.status .x86_64 s'.machine = {
        adjust := false, carry := true, overflow := false, parity := true, sign := false,
        zero := true } := by
  obtain ⟨hagrees, harch⟩ := symbolicBytes_agrees 0x81 0x28
  obtain ⟨s', result, hrun, hvalue, hmoves, hstatus, -⟩ := motion_is_repeated_moves
    hagrees.coherent hagrees.noArray (by decide +kernel) (by rw [harch]; rfl)
    (shiftByte_resolves _) (by decide : 8 ≤ 8) (by decide)
    (by decide +kernel : operation? shiftByte.opcode = some (Motion.shift .left).op)
    (by rw [harch]; exact shiftByte_takes) rfl
    (.inr hagrees.steady) rfl rfl
  rw [harch] at hvalue hmoves hstatus
  refine ⟨s', hrun, ?_, hstatus.trans (by decide +kernel)⟩
  exact hvalue.trans ((congrArg Prod.fst hmoves).trans (by decide +kernel))

/-- Where the formula of the count reads the memory that is written, the carry flag is not
the last bit to leave: it is computed from the count after the write. -/
theorem motion_not_repeated_over_array :
    (loadedByte 0x81).Coherent ∧ (loadedByte 0x81).modes.isOn .memoryArray = false ∧
    (loadedByte 0x81).modes.isOn .alignedMemory = false ∧
    (∀ op ∈ shiftByte.operands, op.Resolves (loadedByte 0x81).arch) ∧
    (loadedByte 0x81).arch = .x86_64 ∧
    operation? shiftByte.opcode = some (Motion.shift .left).op ∧
    Motion.Takes .x86_64 8 shiftByte.operands (.memory (.fixed 0x1000 8)) ∧
    shiftByte.argument .x86_64 (loadedByte 0x81).machine 8 (.memory (.fixed 0x1000 8)) = 0x81 ∧
    shiftByte.places .x86_64 (loadedByte 0x81).machine 8 = 1 ∧
    ∃ s', Step.process ⟨loadedByte 0x81, shiftByte⟩ = .ok none s' ∧
      s'.machine.flag .x86_64 cf ≠ (((Motion.shift .left).step 8)^[1]
        (0x81, (loadedByte 0x81).machine.flag .x86_64 cf)).2 := by
  have hbounded : (loadedByte 0x81).Bounded := Context.bounded_of_vars (by decide +kernel)
  refine ⟨Engine.coherent_of_passes hbounded (by decide +kernel), by decide +kernel,
    by decide +kernel, shiftByte_resolves _, by decide +kernel, by decide +kernel, shiftByte_takes,
    by decide +kernel, by decide +kernel, Step.exists_frame (by decide +kernel)⟩

end Concolic
