import Concolic.Proofs.Agreement

/-
  Changes that keep the concrete and the symbolic state in agreement.

  A change to the engine keeps what it does not touch (`RegisterAgrees.kept` and
  the like): an expression keeps its formula and a formula over the variables
  its value. So the changes of bindings alone keep the agreement if they add
  none (`Agrees.weaken`), and a write keeps it if the formula that it binds has
  the value that it stores (`Agrees.bindRegister`, `Agrees.bindMemory`).
-/

namespace Concolic

open Access (distance addressesFrom)
open Symbolic Word Expression Machine Register Context

variable {access : Access} {address start : Address} {e : Engine} {x : Expression} {f : Formula}
  {bytes id : Nat} {reg root : Register} {s s' : Symbolic} {change : Expression → Expression}
  {α : Type} {w : AlignedWrite} {machine : Machine}

namespace Symbolic

def enter (s : Symbolic) (x : Expression) : Symbolic :=
  { s with expressions := s.expressions.push x }

theorem formula?_enter (s : Symbolic) (x : Expression) :
    (s.enter x).formula? s.expressions.size = some x.formula := by
  simp [formula?, enter]

theorem formula?_enter_of_some (x : Expression) (h : s.formula? id = some f) :
    (s.enter x).formula? id = some f := by
  obtain ⟨y, hy, rfl⟩ := expression_of_formula? h
  have hlt : id < s.expressions.size := (getElem?_eq_some_iff.1 hy).1
  simp only [formula?, enter, Array.getElem?_push]
  rw [if_neg (by omega), hy]
  rfl

theorem create_eq (s : Symbolic) (keep : Bool) (f : Formula) (origin : Origin) (comment : String)
    (address : Option Address) :
    s.create keep f origin comment address =
      (checkOrigin f origin).map fun _ =>
        (s.expressions.size,
          (s.enter { id := s.expressions.size, formula := f, origin, comment, address }).bindOrigin
            keep origin s.expressions.size) := by
  unfold create
  cases checkOrigin f origin <;> rfl

/-- Only the width of a formula decides whether it can be the value of an origin. -/
theorem checkOrigin_congr {f g : Formula} (h : f.width = g.width) (origin : Origin) :
    checkOrigin f origin = checkOrigin g origin := by
  cases origin <;> simp only [checkOrigin, h]

theorem checkOrigin_register (h : checkOrigin f (.register reg) = .ok ()) :
    reg.isRoot = true ∧ f.width = reg.bits := by
  simp only [checkOrigin] at h
  split at h
  · cases h
  · next hok => simpa using hok

theorem checkOrigin_memory (h : checkOrigin f (.memory access) = .ok ()) :
    f.width = access.bits ∧ access.bits % 8 = 0 := by
  simp only [checkOrigin] at h
  split at h
  · cases h
  · next hok => simpa using hok

theorem size_le_of_mem (h : bytes ∈ alignedSizes) : bytes ≤ 16 := by
  simp only [alignedSizes, List.mem_cons, List.not_mem_nil, or_false] at h
  omega

/-- A whole write that is not forgotten shares no byte with the place. -/
theorem mem_dropAligned (hsize : w.bytes ∈ alignedSizes)
    (h : w ∈ (s.dropAligned start bytes).aligned) (hin : distance w.address address < w.bytes) :
    ¬ distance start address < bytes := by
  intro hlt
  have hkept := (List.mem_filter.1 h).2
  have hover := overlaps_of_distance (size_le_of_mem hsize) hin hlt
  rw [hover, List.contains_iff_mem.2 hsize] at hkept
  cases hkept

theorem array_bindOrigin (s : Symbolic) (keep : Bool) (origin : Origin) (id : Nat) :
    (s.bindOrigin keep origin id).array = s.array := by
  cases origin with
  | memory access => cases keep <;> rfl
  | _ => rfl

section

variable (s : Symbolic) (keep : Bool) (access : Access) (id : Nat)

theorem expressions_bindMemory : (s.bindMemory keep access id).expressions = s.expressions := by
  unfold bindMemory
  split <;> rfl

theorem registers_bindMemory : (s.bindMemory keep access id).registers = s.registers := by
  unfold bindMemory
  split <;> rfl

variable {access}

theorem memory_bindMemory (h : access.bytes ≤ 16) (address : Address) :
    (s.bindMemory keep access id).memory[address]? =
      if distance access.address address < access.bytes then
        some { expression := id, byte := distance access.address address }
      else s.memory[address]? := by
  have hmemory : (s.bindMemory keep access id).memory =
      bindBytes s.memory id 0 (addressesFrom access.address access.bytes) := by
    unfold bindMemory
    split <;> rfl
  rw [hmemory, getElem?_bindBytes (by omega)]
  split
  · rw [zero_add, Nat.mod_eq_of_lt (by omega)]
  · rfl

/-- What is kept as a whole after a write: the write, or an earlier one that it
does not displace. -/
theorem aligned_bindMemory (h : w ∈ (s.bindMemory keep access id).aligned) :
    (keep = true ∧ w = { address := access.address, bytes := access.bytes, expression := id }) ∨
      w ∈ (s.dropAligned access.address access.bytes).aligned := by
  unfold bindMemory at h
  cases keep with
  | false => exact .inr h
  | true =>
    simp only [if_true, keepAligned, List.mem_cons] at h
    rcases h with rfl | h
    · exact .inl ⟨rfl, rfl⟩
    · exact .inr (List.mem_filter.1 h).1

end

end Symbolic

theorem Machine.value_congr {m m' : Machine}
    (h : ∀ address, distance start address < bytes → m.byte address = m'.byte address) :
    m.value start bytes = m'.value start bytes := by
  refine littleEndian_congr fun address haddress => h address ?_
  have hle : min bytes maxBytes ≤ 2 ^ 64 := le_trans (min_le_right _ _) (by decide)
  have hlt := (Access.mem_addressesFrom hle).1 haddress
  omega

/-- A formula of whole bytes is no longer than a number that is read or written at
once. -/
theorem Formula.OverVariables.bytes_le {scope : Scope} (h : f.OverVariables scope)
    (hwidth : f.width = bytes * 8) : bytes ≤ maxBytes := by
  have hrange := h.wellFormed.width_range.2
  unfold limit at hrange
  unfold maxBytes
  omega

theorem slice_byte (value d : Nat) :
    slice (d * 8 + 7) (d * 8) value = (value >>> (8 * d)).toUInt8.toNat := by
  rw [slice, show d * 8 + 7 - d * 8 + 1 = 8 by omega, mul_comm d 8]
  simp [truncate, modulus, limit]

/-- The bytes of what is read from memory are those that stand there. -/
theorem Machine.slice_accessValue (machine : Machine) (hmax : access.bytes ≤ maxBytes)
    (hin : distance access.address address < access.bytes) :
    slice (distance access.address address * 8 + 7) (distance access.address address * 8)
      (machine.accessValue access) = (machine.byte address).toNat := by
  rw [slice_byte, accessValue, value, min_eq_left hmax, ← byte_littleEndian hin]
  simp

section

variable {arch : Architecture} {reg root : Register} {a b : Nat} (h : arch.Has reg)
  (hroot : arch.register? reg.parent = some root)

include h hroot

/-- Values that read alike as a root have the same bits as far as its parts reach. -/
theorem Architecture.Has.testBit_eq (hread : root.read a = root.read b) {i : Nat}
    (hi : i < reg.low + reg.bits) : a.testBit i = b.testBit i := by
  obtain ⟨hisRoot, hbits⟩ := h.isRoot_and_bits hroot
  have hhas := has_of_register? hroot
  have hlow := (hhas.whole hisRoot).1
  have hlim : root.bits ≤ limit := le_trans hhas.wordBits.2 (by decide)
  have hi' : i < root.bits := by
    have := h.bound
    omega
  have hbit := congrArg (Nat.testBit · i) hread
  simpa [Register.read, hlow, testBit_truncate hlim, hi'] using hbit

theorem Architecture.Has.read_congr (hread : root.read a = root.read b) :
    reg.read a = reg.read b := by
  have hlim : reg.bits ≤ limit := le_trans h.wordBits.2 (by decide)
  apply Nat.eq_of_testBit_eq
  intro i
  simp only [Register.read, testBit_truncate hlim, Nat.testBit_shiftRight]
  by_cases hi : i < reg.bits
  · rw [h.testBit_eq hroot hread (by omega)]
  · simp [hi]

/-- What a register reads after a write to a part of its root rests on what was read of
the root. -/
theorem Architecture.Has.read_write_congr (hread : root.read a = root.read b) (other : Register)
    (value : Nat) : reg.read (other.write a value) = reg.read (other.write b value) := by
  unfold write
  split
  · rfl
  split
  · rfl
  have hlim : reg.bits ≤ limit := le_trans h.wordBits.2 (by decide)
  apply Nat.eq_of_testBit_eq
  intro i
  simp only [Register.read, testBit_truncate hlim, Nat.testBit_shiftRight, Nat.testBit_or,
    Nat.testBit_xor, Nat.testBit_and]
  by_cases hi : i < reg.bits
  · rw [h.testBit_eq hroot hread (by omega)]
  · simp [hi]

end

theorem Machine.register_restore {arch : Architecture} (hroot : arch.Has root)
    (hisRoot : root.isRoot = true) (hreg : reg.Known) (machine : Machine) :
    (machine.setRegister root (machine.register root)).register reg = machine.register reg := by
  have hid : root.id = root.parent := beq_iff_eq.1 hisRoot
  by_cases hsame : root.parent = reg.parent
  · have hhas := hreg.has hroot hisRoot (hid.trans hsame)
    obtain ⟨other, hother, -, hbits⟩ := hhas.root
    obtain rfl : root = other := hroot.eq_of_id (Architecture.has_of_register? hother)
      ((hid.trans hsame).trans (Architecture.register?_id hother).symm)
    rw [register_eq_slice hhas hother hisRoot hbits, register_eq_slice hhas hother hisRoot hbits,
      register_setRegister hisRoot (hroot.whole hisRoot).1 (machine.register_lt root)]
  · rw [register, root_setRegister, if_neg hsame, ← register]

theorem Machine.byte_setRegister (machine : Machine) (reg : Register) (value : Nat)
    (address : Address) : (machine.setRegister reg value).byte address = machine.byte address := rfl

theorem Machine.root_setValue (machine : Machine) (start : Address) (bytes value id : Nat) :
    (machine.setValue start bytes value).root id = machine.root id := by
  have hbytes : ∀ (values : List UInt8) (machine : Machine) (start : Address),
      (machine.setBytes start values).registers = machine.registers := by
    intro values
    induction values with
    | nil => intro machine start; rfl
    | cons value rest ih => intro machine start; rw [setBytes, ih]; rfl
  rw [root, root, setValue, hbytes]

theorem Exec.run_bind {β : Type} (x : Exec α) (k : α → Exec β) (e : Engine) :
    (x >>= k) e = match x e with
      | .ok a e => k a e
      | .error error e => .error error e := by
  show EStateM.bind x k e = _
  unfold EStateM.bind
  cases x e <;> rfl

def Expression.untainted (x : Expression) : Expression := { x with tainted := false }

/-- What decides whether an expression is kept, its formula apart. -/
def Expression.tag (x : Expression) : Nat × Origin × Bool := (x.id, x.origin, x.tainted)

namespace Engine

/-- Enters an expression, binds it to its origin, and changes the machine. -/
def assign (e : Engine) (x : Expression) (origin : Origin) (machine : Machine) : Engine :=
  { e with
    symbolic := (e.symbolic.enter x).bindOrigin (e.modes.isOn .alignedMemory) origin
      e.symbolic.expressions.size,
    machine }

/-- The root takes the value of the expression. -/
abbrev assignRoot (e : Engine) (x : Expression) (root : Register) : Engine :=
  e.assign x (.register root) (e.machine.setRegister root (e.context.evaluate x.formula))

abbrev assignAccess (e : Engine) (x : Expression) (access : Access) : Engine :=
  e.assign x (.memory access)
    (e.machine.setValue access.address access.bytes (e.context.evaluate x.formula))

/-- The second engine has the variables and the expressions of the first. -/
structure Extends (e e' : Engine) : Prop where
  context : e.context.Later e'.context
  formulas : ∀ id f, e.symbolic.formula? id = some f → e'.symbolic.formula? id = some f

section

variable {e e' : Engine}

theorem RegisterAgrees.kept (h : e.RegisterAgrees reg) (hx : e.Extends e')
    (hb : ∀ id, e'.symbolic.registers[reg.id]? = some id → e.symbolic.registers[reg.id]? = some id)
    (hm : e'.machine.register reg = e.machine.register reg) : e'.RegisterAgrees reg := by
  intro id hid
  obtain ⟨f, hf, hgives⟩ := h id (hb id hid)
  refine ⟨f, hx.formulas id f hf, ?_⟩
  rw [hm]
  exact hgives.later hx.context

theorem ByteAgrees.kept (h : e.ByteAgrees address) (hx : e.Extends e')
    (hb : ∀ cell, e'.symbolic.memory[address]? = some cell →
      e.symbolic.memory[address]? = some cell)
    (hm : e'.machine.byte address = e.machine.byte address) : e'.ByteAgrees address := by
  intro cell hcell
  obtain ⟨f, hf, hover, hlt, hvalue⟩ := h cell (hb cell hcell)
  refine ⟨f, hx.formulas _ f hf, ⟨hover.wellFormed.mono hx.context.scope, hover.memoryless⟩,
    hlt, ?_⟩
  rw [hm, hx.context.evaluate hover]
  exact hvalue

theorem WriteAgrees.kept (h : e.WriteAgrees w) (hx : e.Extends e')
    (hm : e'.machine.value w.address w.bytes = e.machine.value w.address w.bytes) :
    e'.WriteAgrees w := by
  obtain ⟨hsize, f, hf, hgives⟩ := h
  refine ⟨hsize, f, hx.formulas _ f hf, ?_⟩
  rw [hm]
  exact hgives.later hx.context

end

section

variable (e : Engine) (x : Expression) (origin : Origin) (machine : Machine)

theorem expressions_assign :
    (e.assign x origin machine).symbolic.expressions = e.symbolic.expressions.push x := by
  cases origin with
  | register reg => rfl
  | memory access => exact expressions_bindMemory _ _ _ _
  | volatile => rfl

theorem constraints_assign :
    (e.assign x origin machine).symbolic.constraints = e.symbolic.constraints := by
  cases origin with
  | register reg => rfl
  | memory access =>
    simp only [assign, bindOrigin, bindMemory]
    split <;> rfl
  | volatile => rfl

theorem array_assign : (e.assign x origin machine).symbolic.array = e.symbolic.array :=
  array_bindOrigin _ _ _ _

theorem formula?_assign : (e.assign x origin machine).symbolic.formula?
    e.symbolic.expressions.size = some x.formula := by
  rw [formula?, expressions_assign]
  exact formula?_enter _ x

theorem extends_assign : e.Extends (e.assign x origin machine) := by
  refine ⟨.refl _, fun id f hf => ?_⟩
  rw [formula?, expressions_assign]
  exact formula?_enter_of_some x hf

end

/-- The second engine differs from the first in that it may have more variables
and expressions, and fewer bindings. -/
structure Weakens (e e' : Engine) : Prop extends e.Extends e' where
  bounded : e.Bounded → e'.Bounded
  arch : e'.arch = e.arch
  modes : e'.modes = e.modes
  machine : e'.machine = e.machine
  registers : ∀ key id : Nat, e'.symbolic.registers[key]? = some id →
    e.symbolic.registers[key]? = some id
  memory : ∀ (address : Address) (cell : Cell), e'.symbolic.memory[address]? = some cell →
    e.symbolic.memory[address]? = some cell
  aligned : ∀ w ∈ e'.symbolic.aligned, w ∈ e.symbolic.aligned

theorem Weakens.refl (e : Engine) : e.Weakens e where
  context := .refl _
  formulas _ _ h := h
  bounded h := h
  arch := rfl
  modes := rfl
  machine := rfl
  registers _ _ h := h
  memory _ _ h := h
  aligned _ h := h

theorem Weakens.trans {a b c : Engine} (h₁ : a.Weakens b) (h₂ : b.Weakens c) : a.Weakens c where
  context := h₁.context.trans h₂.context
  formulas id f h := h₂.formulas id f (h₁.formulas id f h)
  bounded h := h₂.bounded (h₁.bounded h)
  arch := h₂.arch.trans h₁.arch
  modes := h₂.modes.trans h₁.modes
  machine := h₂.machine.trans h₁.machine
  registers key id h := h₁.registers key id (h₂.registers key id h)
  memory address cell h := h₁.memory address cell (h₂.memory address cell h)
  aligned w h := h₁.aligned w (h₂.aligned w h)

/-- The engine with one variable more. -/
abbrev addVariable (e : Engine) (width : Nat) (nickname : Option String) (value : Nat)
    (pool : Pool) : Engine :=
  { e with context := { e.context.addVariable width nickname value with pool } }

/-- The engine with one expression more, which is bound to its origin. -/
abbrev recorded (e : Engine) (f : Formula) (origin : Origin) (comment : String)
    (address : Option Address) : Engine :=
  e.assign { id := e.symbolic.expressions.size, formula := f, origin, comment, address } origin
    e.machine

theorem weakens_addVariable (e : Engine) {width : Nat} (hw : Formula.WordWidth width)
    (nickname : Option String) (value : Nat) (pool : Pool) :
    e.Weakens (e.addVariable width nickname value pool) where
  __ := Weakens.refl e
  context := e.context.addVariable_later width nickname value
  bounded hb := addVariable_bounded hb hw nickname value

theorem weakens_enter (e : Engine) (x : Expression) :
    e.Weakens (e.assign x .volatile e.machine) where
  __ := Weakens.refl e
  toExtends := e.extends_assign x .volatile e.machine

theorem run_create (e : Engine) (f : Formula) (origin : Origin) (comment : String)
    (address : Option Address) :
    create f origin comment address e =
      match checkOrigin f origin with
      | .ok _ => .ok e.symbolic.expressions.size (e.recorded f origin comment address)
      | .error error => .error error e := by
  have hrun : create f origin comment address e =
      (ofExcept (e.symbolic.create (e.modes.isOn .alignedMemory) f origin
          comment address) >>= fun p => do
        modify fun e => { e with symbolic := p.2 }
        return p.1 : Exec Nat) e := rfl
  rw [hrun, create_eq]
  cases checkOrigin f origin <;> rfl

namespace Agrees

variable {sized : Prop} {e e' : Engine}

section

variable (h : e.Agrees sized)

include h

theorem weaken (hw : e.Weakens e') : e'.Agrees sized where
  bounded := hw.bounded h.bounded
  noArray := by rw [hw.modes]; exact h.noArray
  keeps := by rw [hw.modes]; exact h.keeps
  registers reg hreg hroot := by
    rw [hw.arch] at hreg
    exact (h.registers reg hreg hroot).kept hw.toExtends (hw.registers reg.id) (by rw [hw.machine])
  bytes address := (h.bytes address).kept hw.toExtends (hw.memory address) (by rw [hw.machine])
  writes hsized w hmem :=
    (h.writes hsized w (hw.aligned w hmem)).kept hw.toExtends (by rw [hw.machine])

theorem bindRegister (hroot : e.arch.Has root) (hisRoot : root.isRoot = true)
    (hx : e.context.Gives x.formula root.bits (machine.register root))
    (hother : ∀ id, id ≠ root.id → machine.root id = e.machine.root id)
    (hbytes : ∀ address, machine.byte address = e.machine.byte address) :
    (e.assign x (.register root) machine).Agrees sized := by
  have hextends := e.extends_assign x (.register root) machine
  refine ⟨h.bounded, h.noArray, h.keeps, fun reg hreg hreg' => ?_, fun address => ?_, ?_⟩
  · by_cases hid : reg.id = root.id
    · obtain rfl := hreg.eq_of_id hroot hid
      intro id hnew
      simp only [assign, bindOrigin, Std.ExtTreeMap.getElem?_insert_self, Option.some.injEq] at hnew
      subst hnew
      exact ⟨_, formula?_enter _ x, hx⟩
    · refine (h.registers reg hreg hreg').kept hextends (fun id hbound => ?_) ?_
      · have hcmp : compare root.id reg.id ≠ .eq := mt Std.LawfulEqCmp.eq_of_compare (Ne.symm hid)
        simp only [assign, bindOrigin, Std.ExtTreeMap.getElem?_insert, if_neg hcmp] at hbound
        exact hbound
      · have hparent : reg.parent = reg.id := (beq_iff_eq.1 hreg').symm
        simp only [assign, register, hparent, hother reg.id hid]
  · exact (h.bytes address).kept hextends (fun cell hcell => hcell) (hbytes address)
  · intro hsized w hw
    exact (h.writes hsized w hw).kept hextends (value_congr fun address _ => hbytes address)

theorem bindMemory {value : Nat} (hsize : sized → access.bytes ∈ alignedSizes)
    (hmax : access.bytes ≤ 16) (hx : e.context.Gives x.formula (access.bytes * 8) value)
    (hvalue : machine.accessValue access = value)
    (hbound : ∀ address, distance access.address address < access.bytes →
      slice (distance access.address address * 8 + 7) (distance access.address address * 8)
        value = (machine.byte address).toNat)
    (hother : ∀ address, ¬ distance access.address address < access.bytes →
      machine.byte address = e.machine.byte address)
    (hregisters : ∀ id, machine.root id = e.machine.root id) :
    (e.assign x (.memory access) machine).Agrees sized := by
  have hextends := e.extends_assign x (.memory access) machine
  have hnew := e.formula?_assign x (.memory access) machine
  refine ⟨h.bounded, h.noArray, h.keeps, fun reg hreg hroot => ?_, fun address => ?_, ?_⟩
  · refine (h.registers reg hreg hroot).kept hextends (fun id hbound => ?_) ?_
    · simp only [assign, bindOrigin, registers_bindMemory] at hbound
      exact hbound
    · simp only [assign, register, hregisters]
  · by_cases hin : distance access.address address < access.bytes
    · intro cell hcell
      simp only [assign, bindOrigin, memory_bindMemory _ _ _ hmax, if_pos hin,
        Option.some.injEq] at hcell
      subst hcell
      refine ⟨x.formula, hnew, hx.overVariables, ?_, ?_⟩
      · rw [hx.width_eq]
        simp only
        omega
      · rw [show (e.assign x (.memory access) machine).context = e.context from rfl, hx.value_eq]
        exact hbound address hin
    · refine (h.bytes address).kept hextends (fun cell hcell => ?_) (hother address hin)
      simp only [assign, bindOrigin, memory_bindMemory _ _ _ hmax, if_neg hin] at hcell
      exact hcell
  · intro hsized w hw
    rcases aligned_bindMemory _ _ _ hw with ⟨-, rfl⟩ | hw
    · refine ⟨hsize hsized, x.formula, hnew, ?_⟩
      rw [show (e.assign x (.memory access) machine).machine.value access.address access.bytes =
        value from hvalue]
      exact hx
    · have hold := h.writes hsized w (List.mem_filter.1 hw).1
      refine hold.kept hextends (value_congr fun address hin => hother address ?_)
      exact mem_dropAligned hold.1 hw hin

theorem writeRegister (hroot : e.arch.Has root) (hisRoot : root.isRoot = true)
    (hx : x.formula.OverVariables e.scope) (hwidth : x.formula.width = root.bits) :
    (e.assignRoot x root).Agrees sized := by
  have hgives := gives_evaluate hx
  have hlt := hgives.lt h.bounded
  rw [hwidth] at hgives hlt
  have hid : root.parent = root.id := (beq_iff_eq.1 hisRoot).symm
  refine h.bindRegister hroot hisRoot ?_ ?_ fun address => e.machine.byte_setRegister _ _ _
  · rw [e.machine.register_setRegister hisRoot (hroot.whole hisRoot).1 hlt]
    exact hgives
  · intro id hne
    rw [root_setRegister, hid, if_neg (symm hne)]

theorem writeMemory (hsize : sized → access.bytes ∈ alignedSizes)
    (hx : x.formula.OverVariables e.scope) (hwidth : x.formula.width = access.bytes * 8) :
    (e.assignAccess x access).Agrees sized := by
  have hgives := gives_evaluate hx
  have hlt := hgives.lt h.bounded
  have hrange := hx.wellFormed.width_range.2
  rw [modulus_eq hrange, hwidth, mul_comm] at hlt
  rw [hwidth] at hgives
  have hmax := hx.bytes_le hwidth
  refine h.bindMemory hsize hmax hgives (value_setValue hmax hlt) ?_ ?_ ?_
  · intro address hin
    rw [byte_setValue hmax, if_pos hin]
    exact slice_byte _ _
  · intro address hout
    rw [byte_setValue hmax, if_neg hout]
  · exact fun id => e.machine.root_setValue _ _ _ id

theorem enter (x : Expression) :
    (e.assign x .volatile e.machine).Agrees sized := h.weaken (e.weakens_enter x)

end

end Agrees

/-! What reading keeps. -/

/-- The two engines differ in taint and in the pool of formulas only. -/
structure Like (e d : Engine) : Prop where
  arch : d.arch = e.arch
  modes : d.modes = e.modes
  vars : d.vars = e.vars
  expressions : d.symbolic.expressions.map Expression.untainted =
    e.symbolic.expressions.map Expression.untainted
  registers : d.symbolic.registers = e.symbolic.registers
  memory : d.symbolic.memory = e.symbolic.memory
  aligned : d.symbolic.aligned = e.symbolic.aligned
  constraints : d.symbolic.constraints = e.symbolic.constraints
  machine : d.machine = e.machine

namespace Like

variable {a b c : Engine}

theorem refl (e : Engine) : e.Like e := ⟨rfl, rfl, rfl, rfl, rfl, rfl, rfl, rfl, rfl⟩

theorem symm (h : a.Like b) : b.Like a :=
  ⟨h.arch.symm, h.modes.symm, h.vars.symm, h.expressions.symm, h.registers.symm, h.memory.symm,
    h.aligned.symm, h.constraints.symm, h.machine.symm⟩

theorem trans (h₁ : a.Like b) (h₂ : b.Like c) : a.Like c :=
  ⟨h₂.arch.trans h₁.arch, h₂.modes.trans h₁.modes, h₂.vars.trans h₁.vars,
    h₂.expressions.trans h₁.expressions, h₂.registers.trans h₁.registers,
    h₂.memory.trans h₁.memory, h₂.aligned.trans h₁.aligned, h₂.constraints.trans h₁.constraints,
    h₂.machine.trans h₁.machine⟩

theorem later (h : a.Like b) : a.context.Later b.context := by
  intro id entry hentry
  rw [h.vars]
  exact hentry

theorem weakens (h : a.Like b) : a.Weakens b where
  context := h.later
  formulas id f hf := by
    have hid := congrArg (fun table => (table[id]?).map formula) h.expressions
    simp only [Array.getElem?_map, Option.map_map] at hid
    exact hid.trans hf
  bounded hb := by unfold Bounded; rw [h.vars]; exact hb
  arch := h.arch
  modes := h.modes
  machine := h.machine
  registers key id hid := by rw [h.registers] at hid; exact hid
  memory address cell hcell := by rw [h.memory] at hcell; exact hcell
  aligned w hw := by rw [h.aligned] at hw; exact hw

end Like

def withPool (e : Engine) (pool : Pool) : Engine := { e with context := { e.context with pool } }

theorem like_withPool (e : Engine) (pool : Pool) : e.Like (e.withPool pool) :=
  ⟨rfl, rfl, rfl, rfl, rfl, rfl, rfl, rfl, rfl⟩

theorem run_build {x : Build α} {r : Except Error α} (h : Build.Answers e.modes.rules x r) :
    ∃ pool, Exec.build x e = Build.outcome r (e.withPool pool) := by
  obtain ⟨pool, hrun⟩ := h e.context
  refine ⟨pool, ?_⟩
  simp only [Exec.build, hrun]
  cases r <;> rfl

theorem run_build_ok {x : Build α} {a : α} (h : Build.Answers e.modes.rules x (.ok a)) :
    ∃ pool, Exec.build x e = .ok a (e.withPool pool) := run_build h

end Engine

/-! Changes of an expression. -/

namespace Symbolic

/-- What the change of an expression leaves as it is. -/
structure Updates (id : Nat) (change : Expression → Expression) (s s' : Symbolic) : Prop where
  expressions : ∀ i : Nat, s'.expressions[i]? =
    if id = i then s.expressions[i]?.map change else s.expressions[i]?
  registers : s'.registers = s.registers
  memory : s'.memory = s.memory
  aligned : s'.aligned = s.aligned
  constraints : s'.constraints = s.constraints
  array : s'.array = s.array

theorem update_cases (s : Symbolic) (id : Nat) (change : Expression → Expression) :
    (id < s.expressions.size ∧ ∃ s', s.update id change = .ok s' ∧ Updates id change s s') ∨
      (s.expressions.size ≤ id ∧ s.update id change = .error (.unknownExpression id)) := by
  unfold update
  cases hx : s.expressions[id]? with
  | none => exact .inr ⟨Array.getElem?_eq_none_iff.1 hx, rfl⟩
  | some x =>
    have hlt : id < s.expressions.size := (getElem?_eq_some_iff.1 hx).1
    refine .inl ⟨hlt, _, rfl, ⟨fun i => ?_, rfl, rfl, rfl, rfl, rfl⟩⟩
    simp only [Array.getElem?_setIfInBounds]
    split
    · next heq =>
      subst heq
      rw [hx]
      rfl
    · rfl

/-- Changes alike to one table and to another like it. -/
theorem Updates.map_eq {t t' : Symbolic} {change' : Expression → Expression} {part : Expression → α}
    (hs : Updates id change s s') (ht : Updates id change' t t')
    (hchange : ∀ x y, part x = part y → part (change x) = part (change' y))
    (h : s.expressions.map part = t.expressions.map part) :
    s'.expressions.map part = t'.expressions.map part := by
  apply Array.ext_getElem?
  intro i
  have hi := congrArg (fun table => table[i]?) h
  simp only [Array.getElem?_map] at hi ⊢
  rw [hs.expressions, ht.expressions]
  split
  · cases hx : s.expressions[i]? <;> cases hy : t.expressions[i]? <;>
      simp only [hx, hy, Option.map_none, Option.map_some, reduceCtorEq, Option.some.injEq] at hi ⊢
    exact hchange _ _ hi
  · exact hi

theorem Updates.map_self {p : Expression → α} (hs : Updates id change s s')
    (hchange : ∀ x, p (change x) = p x) : s'.expressions.map p = s.expressions.map p := by
  apply Array.ext_getElem?
  intro i
  simp only [Array.getElem?_map, hs.expressions]
  split
  · cases s.expressions[i]? with
    | none => rfl
    | some x => simp only [Option.map_some, hchange]
  · rfl

theorem Updates.size (h : Updates id change s s') : s'.expressions.size = s.expressions.size := by
  simpa using congrArg Array.size (h.map_self (p := fun _ => ()) fun _ => rfl)

theorem Updates.formula?_eq (hs : Updates id change s s')
    (hchange : ∀ x, (change x).formula = x.formula) (i : Nat) : s'.formula? i = s.formula? i := by
  have hi := congrArg (·[i]?) (hs.map_self hchange)
  simpa only [formula?, Array.getElem?_map] using hi

/-- A change of an expression that keeps its formula takes nothing away. -/
theorem Updates.weakens (h : Updates id change e.symbolic s)
    (hformula : ∀ x, (change x).formula = x.formula) : e.Weakens { e with symbolic := s } where
  __ := Engine.Weakens.refl e
  formulas i f hf := (h.formula?_eq hformula i).trans hf
  registers key i hi := by rw [← h.registers]; exact hi
  memory address cell hc := by rw [← h.memory]; exact hc
  aligned w hw := by rw [← h.aligned]; exact hw

end Symbolic

theorem Engine.Agrees.update {sized : Prop} {symbolic : Symbolic} (h : e.Agrees sized)
    (hs : Updates id change e.symbolic symbolic) (hchange : ∀ x, (change x).formula = x.formula) :
    ({ e with symbolic } : Engine).Agrees sized :=
  h.weaken (hs.weakens hchange)

end Concolic
