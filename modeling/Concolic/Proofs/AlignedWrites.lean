import Concolic.Proofs.ByteMap
import Concolic.Proofs.Reachable

/-
  Whole writes that are kept.

  Under one of the modes a write to memory is kept as a whole, and a read of the same
  place answers its formula and does not put the bytes together. A later write or
  unbinding forgets the whole writes that share a byte with it, if their size is one
  of a few (`Symbolic.alignedSizes`). So a whole write of such a size is current: its
  bytes are the bytes of its formula (`AlignedWrite.Current`), through every use of
  the engine (`InUse.cached`), and the answer has the value that the bytes give
  (`whole_write_is_current`).

  A write of another size, of three bytes say, is kept and found again all the same,
  and no later write displaces it: its answer can be out of date
  (`three_bytes_stay`).
-/

namespace Concolic

open Access (distance addressesFrom)
open Formula Build Symbolic Engine Exec Word

variable {f : Formula} {w : AlignedWrite} {s s' : Symbolic} {given' : List Formula}

theorem ofDigits_bytes (value count : Nat) :
    Nat.ofDigits 256 ((List.range count).map fun i => (value >>> (8 * i)) % 256) =
      value % 2 ^ (8 * count) := by
  induction count with
  | zero => simp [Nat.mod_one]
  | succ n ih =>
    have hpow : 2 ^ (8 * (n + 1)) = 2 ^ (8 * n) * 256 := by
      rw [show 8 * (n + 1) = 8 * n + 8 by omega, Nat.pow_add]
    have hbase : 256 ^ n = 2 ^ (8 * n) := by
      rw [Nat.pow_mul]
    rw [List.range_succ, List.map_append, Nat.ofDigits_append, ih, hpow, Nat.mod_mul]
    simp only [List.length_map, List.length_range, List.map_cons, List.map_nil,
      Nat.ofDigits_singleton, hbase, Nat.shiftRight_eq_div_pow]

theorem Access.distance_lt_of_mem {start address : Address} {count : Nat}
    (h : address ∈ addressesFrom start count) : distance start address < count := by
  obtain ⟨i, hi, rfl⟩ := List.mem_map.1 h
  have hs := UInt64.toNat_lt start
  have hlt : i < count := List.mem_range.1 hi
  have hmod : i.toUInt64.toNat = i % 2 ^ 64 := by simp
  simp only [distance, UInt64.toNat_sub, UInt64.toNat_add]
  omega

/-- The bytes of the write are bound to the bytes of its formula. -/
structure AlignedWrite.Current (w : AlignedWrite) (s : Symbolic) : Prop where
  formula : ∃ f, s.formula? w.expression = some f ∧ f.width = 8 * w.bytes
  cells : ∀ address, distance w.address address < w.bytes →
    s.memory[address]? = some ⟨w.expression, distance w.address address⟩

theorem AlignedWrite.Current.kept (h : w.Current s)
    (hformula : ∀ id f, s.formula? id = some f → s'.formula? id = some f)
    (hcells : ∀ address, distance w.address address < w.bytes →
      s'.memory[address]? = s.memory[address]?) : w.Current s' := by
  obtain ⟨f, hf, hwidth⟩ := h.formula
  refine ⟨⟨f, hformula _ f hf, hwidth⟩, fun address hin => ?_⟩
  rw [hcells address hin]
  exact h.cells address hin

namespace Symbolic

/-- Every whole write of a size that a later write displaces is current. -/
def Fresh (s : Symbolic) : Prop := ∀ w ∈ s.aligned, w.bytes ∈ alignedSizes → w.Current s

variable {s : Symbolic}

/-- The bindings of a place are taken away, with the whole writes that share a byte
with it. -/
theorem Fresh.unbind (h : s.Fresh) {start : Address} {bytes : Nat}
    (hexpressions : s'.expressions = s.expressions)
    (haligned : s'.aligned = (s.dropAligned start bytes).aligned)
    (hmemory : ∀ address : Address, ¬ distance start address < bytes →
      s'.memory[address]? = s.memory[address]?) : s'.Fresh := by
  intro w hw hsize
  rw [haligned] at hw
  have hold := h w (List.mem_filter.1 hw).1 hsize
  refine hold.kept (fun id f hf => ?_) fun address hin => ?_
  · rwa [formula?, hexpressions]
  · exact hmemory address (mem_dropAligned hsize hw hin)

theorem Fresh.concretizeByte (h : s.Fresh) (place : Address) : (s.concretizeByte place).Fresh := by
  refine h.unbind rfl rfl fun address hout => ?_
  have hne : address ∉ [place] := by
    intro hmem
    obtain rfl := List.mem_singleton.1 hmem
    exact hout (by rw [Access.distance_self]; decide)
  have hget := getElem?_foldl_erase s.memory [place] address
  rw [if_neg hne] at hget
  exact hget

theorem Fresh.concretizeAccess (h : s.Fresh) (access : Access) :
    (s.concretizeAccess access).Fresh := by
  refine h.unbind rfl rfl fun address hout => ?_
  have hget := getElem?_foldl_erase s.memory access.byteAddresses address
  have hne : address ∉ access.byteAddresses := fun hmem => hout (Access.distance_lt_of_mem hmem)
  rw [if_neg hne] at hget
  exact hget

theorem Fresh.concretizeMemory (s : Symbolic) : s.concretizeMemory.Fresh := by
  intro w hw
  cases hw

theorem Fresh.enter (h : s.Fresh) (x : Expression) : (s.enter x).Fresh := by
  intro w hw hsize
  exact (h w hw hsize).kept (fun _ _ hf => formula?_enter_of_some x hf) fun _ _ => rfl

/-- An expression that fits its origin is bound to it: it displaces the whole writes
that share a byte with it, and is current itself. -/
theorem Fresh.bindOrigin (h : s.Fresh) (keep : Bool) {origin : Origin} {id : Nat}
    (hf : s.formula? id = some f) (hwide : f.width ≤ limit)
    (hcheck : checkOrigin f origin = .ok ()) : (s.bindOrigin keep origin id).Fresh := by
  cases origin with
  | register => exact fun w hw hsize => ⟨(h w hw hsize).formula, (h w hw hsize).cells⟩
  | volatile => exact h
  | memory access =>
    obtain ⟨hwidth, hwhole⟩ := checkOrigin_memory hcheck
    have hbytes := bytes_le_of_checkOrigin hwide hcheck
    intro w hw hsize
    show w.Current (s.bindMemory keep access id)
    rcases aligned_bindMemory s keep id hw with ⟨-, rfl⟩ | hw
    · refine ⟨⟨f, (formula?_bindMemory ..).trans hf, ?_⟩, fun address hin => ?_⟩
      · show f.width = 8 * (access.bits / 8)
        omega
      · rw [memory_bindMemory s keep id hbytes, if_pos hin]
    · refine (h w (List.mem_filter.1 hw).1 hsize).kept (fun i g hg => ?_) fun address hin => ?_
      · exact (formula?_bindMemory ..).trans hg
      · rw [memory_bindMemory s keep id hbytes, if_neg (mem_dropAligned hsize hw hin)]

end Symbolic

/-! The engine in use. -/

namespace Engine

/-- The recorded formulas, the memory array and the formulas given out are formed, and
the whole writes are current. -/
structure Cached (e : Engine) (given : List Formula) : Prop where
  bounded : e.Bounded
  given : ∀ f ∈ given, f.Formed e.scope
  readable : e.symbolic.Readable e.scope
  array : ∀ f, e.symbolic.array = some f → f.IndexedBy e.scope e.arch.addressWidth
  fresh : e.symbolic.Fresh

variable {e : Engine} {given : List Formula}

section

variable (h : e.Cached given)

include h

theorem Cached.withPool (pool : Pool) : (e.withPool pool).Cached given :=
  ⟨h.bounded, h.given, h.readable, h.array, h.fresh⟩

theorem Cached.context {ctx : Context} (hbounded : ctx.Bounded)
    (hext : ctx.scope.Extends e.scope) (hgiven : ∀ f ∈ given', f.Formed ctx.scope) :
    ({ e with context := ctx } : Engine).Cached given' where
  bounded := hbounded
  given := hgiven
  readable := h.readable.mono hext
  array f hf := (h.array f hf).mono hext
  fresh := h.fresh

theorem Cached.fewer (hfewer : e.symbolic.Fewer s)
    (harray : s.array = e.symbolic.array ∨ s.array = none) (hfresh : s.Fresh) :
    ({ e with symbolic := s } : Engine).Cached given where
  __ := h
  readable := h.readable.fewer hfewer
  array f hf := by
    rcases harray with hsame | hnone
    · exact h.array f (hsame ▸ hf)
    · rw [hnone] at hf
      cases hf
  fresh := hfresh

theorem Cached.create (hf : f.Formed e.scope) (hword : f.isArray = false)
    (hwide : f.width ≤ limit) (origin : Origin) (comment : String) (address : Option Address) :
    Yields (fun _ e' => e'.Cached given ∧ e'.context = e.context) (fun e' => e'.Cached given)
      (create f origin comment address e) := by
  rw [run_create]
  cases hcheck : checkOrigin f origin with
  | error => exact h
  | ok =>
    let x : Expression :=
      { id := e.symbolic.expressions.size, formula := f, origin, comment, address }
    have hentered := formula?_enter e.symbolic x
    have hreadable := h.readable.enter (x := x) hf hword hwide
    refine ⟨⟨h.bounded, h.given, hreadable.bindOrigin _ hentered hcheck, fun g hg => ?_, ?_⟩, rfl⟩
    · have hsame := array_bindOrigin (e.symbolic.enter x) (e.modes.isOn .alignedMemory) origin
        e.symbolic.expressions.size
      exact h.array g (hsame.symm.trans hg)
    · exact (h.fresh.enter x).bindOrigin _ hentered hwide hcheck

/-! Symbolization of memory under the mode that makes it an array. -/

theorem Cached.indexed : e.array.IndexedBy e.scope e.arch.addressWidth := by
  unfold Engine.array
  cases harray : e.symbolic.array with
  | some array => exact h.array array harray
  | none => exact ⟨.intro trivial trivial (by simp), rfl, rfl⟩

theorem Cached.withArray {array : Formula}
    (harray : array.IndexedBy e.scope e.arch.addressWidth) :
    (e.withArray array).Cached given where
  __ := h
  readable := ⟨h.readable.formulas, h.readable.cells⟩
  array f hf := by
    cases hf
    exact harray
  fresh w hw hsize := ⟨(h.fresh w hw hsize).formula, (h.fresh w hw hsize).cells⟩

/-- The new array of a store of a word, or none. -/
theorem Cached.arrayStore {index value : Formula} (hindex : index.Formed e.scope)
    (hvalue : value.Formed e.scope) :
    Yields (fun _ e' => e'.Cached given) (fun e' => e'.Cached given)
      (arrayStore index value e) := by
  obtain ⟨r, hr, hstored, -⟩ := (storeBytes_makes h.indexed hindex.proper hvalue.proper
    False.elim).ensures
  obtain ⟨pool, hrun⟩ := run_arrayStore hr
  rw [hrun]
  cases r with
  | error => exact (h.withPool pool).withArray h.indexed
  | ok array => exact (h.withPool pool).withArray (hstored array rfl)

/-- Memory is bound to a new variable, and stored into the memory array if that is
kept. -/
theorem Cached.symbolizeMemory (access : Access) :
    Yields (fun _ e' => e'.Cached given) (fun e' => e'.Cached given)
      (symbolizeMemory access e) := by
  refine symbolizeMemory_yields (fun pool h => h.withPool pool) h (fun hw pool => ?_)
    (fun h₁ hf => ?_) fun h₁ hindex hf => h₁.arrayStore hindex hf
  · have hext := e.context.addVariable_extends access.bits none (e.machine.accessValue access)
    exact h.context (Context.addVariable_bounded h.bounded hw _ _) hext
      fun f hf => (h.given f hf).mono hext
  · exact h₁.create hf.formed (hf.word trivial) (hf.width_range trivial).2 _ _ _

end

end Engine

/-! Uses of the engine. -/

def Action.Rebinds : Action → Prop
  | process _ | symbolizeRegister _ => False
  | _ => True

namespace Engine

/-- One use of an engine and its context, with the formulas given out before and after
it. -/
inductive Use : Engine → List Formula → Engine → List Formula → Prop where
  | context {e : Engine} {ctx : Context} {given given' : List Formula}
      (use : e.context.Use given ctx given') : Use e given { e with context := ctx } given'
  /-- A word of at most 128 bits is recorded, for any origin. -/
  | created {e : Engine} {given : List Formula} {f : Formula} (origin : Origin)
      (comment : String) (address : Option Address) (listed : f ∈ given)
      (word : f.isArray = false) (wide : f.width ≤ Word.limit) :
      Use e given (Exec.after (create f origin comment address e)) given
  | acted {e : Engine} {given : List Formula} (action : Action) (rebinds : action.Rebinds) :
      Use e given (action.apply e) given
  | machine {e : Engine} {given : List Formula} (machine : Machine) :
      Use e given { e with machine } given

/-- The engines that uses lead to, from new ones. -/
inductive InUse : Engine → List Formula → Prop where
  | start (arch : Architecture) (modes : Modes) : InUse { arch, modes } []
  | next {e e' : Engine} {given given' : List Formula} (before : InUse e given)
      (use : Use e given e' given') : InUse e' given'

variable {e : Engine} {given : List Formula}

theorem Cached.start (arch : Architecture) (modes : Modes) :
    ({ arch, modes } : Engine).Cached [] where
  bounded := Context.bounded_empty
  given f hf := by cases hf
  readable := readable_empty _
  array f hf := by cases hf
  fresh w hw := by cases hw

section

variable (h : e.Cached given)

include h

theorem Cached.concretizeRegister (reg : Register) :
    ({ e with symbolic := e.symbolic.concretizeRegister reg } : Engine).Cached given :=
  h.fewer (e.symbolic.fewer_concretizeRegister reg) (.inl rfl)
    fun w hw hsize => ⟨(h.fresh w hw hsize).formula, (h.fresh w hw hsize).cells⟩

theorem Cached.concretizeByte (place : Address) :
    ({ e with symbolic := e.symbolic.concretizeByte place } : Engine).Cached given :=
  h.fewer (e.symbolic.fewer_concretizeByte place) (.inl rfl) (h.fresh.concretizeByte place)

theorem Cached.concretizeBytes (places : List Address) :
    ({ e with symbolic := places.foldl Symbolic.concretizeByte e.symbolic } : Engine).Cached
      given := by
  induction places generalizing e with
  | nil => exact h
  | cons place places ih => exact ih (h.concretizeByte place)

theorem Cached.concretizeRegisters :
    ({ e with symbolic := e.symbolic.concretizeRegisters } : Engine).Cached given :=
  h.fewer e.symbolic.fewer_concretizeRegisters (.inl rfl)
    fun w hw hsize => ⟨(h.fresh w hw hsize).formula, (h.fresh w hw hsize).cells⟩

theorem Cached.machine (machine : Machine) : ({ e with machine } : Engine).Cached given :=
  ⟨h.bounded, h.given, h.readable, h.array, h.fresh⟩

/-- Every action on the bindings keeps the whole writes current. -/
theorem Cached.apply {action : Action} (hrebinds : action.Rebinds) :
    (action.apply e).Cached given := by
  cases action with
  | process | symbolizeRegister => exact hrebinds.elim
  | setRegister reg value => exact (h.concretizeRegister reg).machine _
  | setMemory address bytes => exact (h.concretizeBytes _).machine _
  | symbolizeMemory access => exact (h.symbolizeMemory access).after
  | concretizeRegister reg => exact h.concretizeRegister reg
  | concretizeByte address => exact h.concretizeByte address
  | concretizeAccess access =>
    exact h.fewer (e.symbolic.fewer_concretizeAccess access) (.inl rfl)
      (h.fresh.concretizeAccess access)
  | concretizeRegisters => exact h.concretizeRegisters
  | concretizeMemory =>
    exact h.fewer e.symbolic.fewer_concretizeMemory (.inr rfl) (.concretizeMemory _)
  | concretizeAll =>
    exact h.fewer e.symbolic.fewer_concretizeAll (.inr rfl) (.concretizeMemory _)
  | retaint | setMode => exact ⟨h.bounded, h.given, h.readable, h.array, h.fresh⟩

end

theorem Use.cached {e' : Engine} (hstep : Use e given e' given') (h : e.Cached given) :
    e'.Cached given' := by
  cases hstep with
  | context use =>
    obtain ⟨hbounded, hext, hgiven⟩ := use.formed h.bounded h.given
    exact h.context hbounded hext hgiven
  | created origin comment address listed word wide =>
    exact ((h.create (h.given _ listed) word wide origin comment address).mono
      (fun _ _ ha => ha.1) fun _ he => he).after
  | acted action rebinds => exact h.apply rebinds
  | machine machine => exact h.machine machine

theorem InUse.cached (h : e.InUse given) : e.Cached given := by
  induction h with
  | start arch modes => exact .start arch modes
  | next _ use ih => exact use.cached ih

end Engine

theorem AlignedWrite.Current.value_eq {scope : Scope} {v : Valuation} (h : w.Current s)
    (hf : s.formula? w.expression = some f) (hformed : f.Formed scope) (hv : v.Fits scope)
    (hbytes : w.bytes ≤ 16) (machine : Machine) :
    Nat.ofDigits 256 ((addressesFrom w.address w.bytes).map (s.byteValue machine v)) =
      f.eval v := by
  obtain ⟨g, hg, hwidth⟩ := h.formula
  obtain rfl := Option.some.inj (hf.symm.trans hg)
  have hbyte : (addressesFrom w.address w.bytes).map (s.byteValue machine v) =
      (List.range w.bytes).map fun i => (f.eval v >>> (8 * i)) % 256 := by
    rw [addressesFrom, List.map_map]
    refine List.map_congr_left fun i hi => ?_
    have hlt : i < w.bytes := List.mem_range.1 hi
    have hdistance := Access.distance_add w.address (show i < 2 ^ 64 by omega)
    have hcell := h.cells (w.address + i.toUInt64) (by rw [hdistance]; exact hlt)
    rw [hdistance] at hcell
    simp only [Function.comp_apply, byteValue, hcell, hf]
  have hlt := hformed.eval_lt hv
  rw [hwidth, modulus_eq (by unfold limit; omega)] at hlt
  rw [hbyte, ofDigits_bytes, Nat.mod_eq_of_lt hlt]

/-- **A whole write is current.** In every engine in use, if a whole write is kept of
an access whose size a later write displaces, then the formula that it answers and the
formula put together from the bytes both exist, and have the same value under every
assignment and for every machine. -/
theorem whole_write_is_current {e : Engine} {given : List Formula} (h : e.InUse given)
    (rules : Rules) (machine : Machine) (access : Access)
    (hsize : access.bytes ∈ Symbolic.alignedSizes) (id : Nat)
    (hkept : e.symbolic.aligned? access.address access.bytes = some id) :
    ∃ f g ctx ctx', e.symbolic.formula? id = some f ∧
      e.symbolic.memoryFormula true machine access rules e.context = .ok f ctx ∧
      e.symbolic.memoryFormula false machine access rules e.context = .ok g ctx' ∧
      f.width = g.width ∧ ∀ v, v.Fits e.scope → f.value v = g.value v := by
  obtain ⟨w, hw, rfl⟩ := Option.map_eq_some_iff.1 hkept
  have hplace := List.find?_some hw
  simp only [Bool.and_eq_true, beq_iff_eq] at hplace
  have hcached := h.cached
  have hmax := Symbolic.size_le_of_mem hsize
  have hpos : access.bytes ≠ 0 := by
    intro hzero
    rw [hzero] at hsize
    revert hsize
    decide
  have hcurrent := hcached.fresh w (List.mem_of_find?_eq_some hw) (hplace.2 ▸ hsize)
  obtain ⟨f, hf, hwidth⟩ := hcurrent.formula
  obtain ⟨g, hg, hmeans⟩ :=
    Symbolic.memoryFormula_means hcached.readable rules machine (by omega) hmax
  obtain ⟨pool, hrun⟩ := hg e.context
  refine ⟨f, g, e.context, { e.context with pool }, hf, ?_, hrun, ?_, fun v hv => ?_⟩
  · obtain ⟨x, hx, rfl⟩ := Symbolic.expression_of_formula? hf
    unfold Symbolic.memoryFormula
    rw [if_neg hpos]
    simp only [if_true, hkept, Symbolic.expression, hx]
    rfl
  · rw [hwidth, hmeans.width_eq, hplace.2]
  · have hvalue := hcurrent.value_eq hf (hcached.readable.formulas _ f hf).1 hv
      (hplace.2 ▸ hmax) machine
    rw [Formula.value_eq_eval, Formula.value_eq_eval, hmeans.eval_eq v hv, ← hvalue, hplace.1,
      hplace.2]
    rfl

/-- Two bytes that become a variable are kept as a whole write, and it is current. -/
theorem whole_write_is_current_two_bytes :
    ∃ (e : Engine) (given : List Formula) (f g : Formula) (ctx ctx' : Context), e.InUse given ∧
      e.symbolic.aligned? 0x1000 2 = some 0 ∧
      e.symbolic.memoryFormula true {} (.fixed 0x1000 16) ⟨true, true⟩ e.context = .ok f ctx ∧
      e.symbolic.memoryFormula false {} (.fixed 0x1000 16) ⟨true, true⟩ e.context = .ok g ctx' ∧
      ∀ v, v.Fits e.scope → f.value v = g.value v := by
  have inUse := ((Engine.InUse.start .x86_64 .allOff).next
    (.acted (.setMode .alignedMemory true) trivial)).next
    (.acted (.symbolizeMemory (.fixed 0x1000 16)) trivial)
  obtain ⟨f, g, ctx, ctx', -, hwhole, hbytes, -, hvalue⟩ := whole_write_is_current inUse
    ⟨true, true⟩ {} (.fixed 0x1000 16) (by decide) 0 (by decide +kernel)
  exact ⟨_, _, f, g, ctx, ctx', inUse, by decide +kernel, hwhole, hbytes, hvalue⟩

/-- Three bytes are kept as a whole write as well, and the byte written over the second
of them does not displace it: the answer is out of date. -/
theorem three_bytes_stay :
    ∃ (e : Engine) (given : List Formula) (f g : Formula) (ctx ctx' : Context) (v : Valuation),
      e.InUse given ∧ v.Fits e.scope ∧
      e.symbolic.memoryFormula true {} (.fixed 0x1000 24) ⟨false, false⟩ e.context = .ok f ctx ∧
      e.symbolic.memoryFormula false {} (.fixed 0x1000 24) ⟨false, false⟩ e.context = .ok g ctx' ∧
      f.value v = 0x112233 ∧ g.value v = 0x11aa33 := by
  have asked := ((Engine.InUse.start .x86_64 .allOff).next
    (.acted (.setMode .alignedMemory true) trivial)).next
    (.context (.asked (.newVariable 24 none 0x112233) ⟨false, false⟩ trivial))
  have wide := asked.next (.created (f := .var 0 24) (.memory (.fixed 0x1000 24)) "" none
    (by decide +kernel) rfl (by decide))
  have narrow := (wide.next
    (.context (.asked (.newVariable 8 none 0xaa) ⟨false, false⟩ trivial))).next
    (.created (f := .var 1 8) (.memory (.fixed 0x1001 8)) "" none (by decide +kernel) rfl
      (by decide))
  refine ⟨_, _, .var 0 24, .concat (.concat (.extract 23 16 (.var 0 24))
    (.extract 7 0 (.var 1 8))) (.extract 7 0 (.var 0 24)), _, _, _, narrow,
    narrow.cached.bounded.fits fun _ => 0, Build.eq_ok_of_answer? ?_, Build.eq_ok_of_answer? ?_,
    ?_, ?_⟩ <;> decide +kernel

end Concolic
