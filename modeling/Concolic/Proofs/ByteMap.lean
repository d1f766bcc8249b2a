import Concolic.Proofs.Denotation
import Concolic.Proofs.Unbinding

/-
  Memory as a map of bytes.

  The formula of an access is put together from the bytes bound at its addresses,
  each a part of a recorded formula, and the concrete bytes where nothing is bound.
  It denotes the little-endian number of its bytes (`memoryFormula_means`), in every
  state whose bindings can be read (`Readable`).

  The bindings that a series of writes and unbindings leaves are those of the map
  from addresses to bytes of formulas that one would keep by hand (`ByteMap`), so
  the formula of every access is the number of the bytes in that map
  (`memory_is_byteMap`), around the end of the address space as elsewhere.
-/

namespace Concolic

open Access (distance addressesFrom)
open Formula Word Symbolic

variable {access : Access} {f : Formula} {s s' : Symbolic} {map : ByteMap} {x : Expression}

/-! The formula of an access. -/

namespace Symbolic

/-- Every recorded formula is a formed word, and every bound byte is a byte of a
recorded formula. -/
structure Readable (scope : Scope) (s : Symbolic) : Prop where
  formulas : ∀ id f, s.formula? id = some f →
    f.Formed scope ∧ f.isArray = false ∧ f.width ≤ limit
  cells : ∀ (address : Address) (cell : Cell), s.memory[address]? = some cell →
    ∃ f, s.formula? cell.expression = some f ∧ cell.byte * 8 + 7 < f.width

theorem readable_empty (scope : Scope) : ({} : Symbolic).Readable scope where
  formulas id f h := by simp [formula?] at h
  cells address cell h := by simp at h

theorem Readable.mono {scope later : Scope} (h : s.Readable scope) (hle : later.Extends scope) :
    s.Readable later where
  formulas id f hf := ⟨(h.formulas id f hf).1.mono hle, (h.formulas id f hf).2⟩
  cells := h.cells

theorem Readable.fewer {scope : Scope} {s : Symbolic} (h : s.Readable scope) (hfewer : s.Fewer s') :
    s'.Readable scope := by
  have hsame : ∀ id, s'.formula? id = s.formula? id := by
    intro id
    rw [formula?, formula?, hfewer.expressions]
  constructor
  · intro id f hf
    exact h.formulas id f (hsame id ▸ hf)
  · intro address cell hcell
    obtain ⟨f, hf, hlt⟩ := h.cells address cell (hfewer.memory address cell hcell)
    exact ⟨f, (hsame _).trans hf, hlt⟩

/-- The value of a byte of memory under an assignment. -/
def byteValue (s : Symbolic) (machine : Machine) (v : Valuation) (address : Address) : Nat :=
  match s.memory[address]? with
  | some cell =>
    match s.formula? cell.expression with
    | some f => (f.eval v >>> (8 * cell.byte)) % 256
    | none => 0
  | none => (machine.byte address).toNat

variable {scope : Scope} {s : Symbolic}

theorem byteFormula_means (h : s.Readable scope) (rules : Rules) (machine : Machine)
    (address : Address) :
    Build.Denotes scope (Formed scope) rules (s.byteFormula machine address) 8
      fun v => s.byteValue machine v address := by
  have hk := Formed.hereditary scope
  unfold byteFormula byteValue
  cases hcell : s.memory[address]? with
  | none =>
    exact (Build.Denotes.constant hk (by decide) _).of_eq rfl
      fun _ _ => truncate_of_lt (UInt8.toNat_lt _)
  | some cell =>
    obtain ⟨f, hf, hlt⟩ := h.cells address cell hcell
    obtain ⟨hformed, hword, hwide⟩ := h.formulas _ f hf
    obtain ⟨x, hx, rfl⟩ := expression_of_formula? hf
    refine makes_found hx ((Build.Denotes.extract hk ⟨hformed, hword, rfl, fun _ _ => rfl⟩
      (by omega) hlt (by unfold limit; omega)).of_eq (by omega) fun v hv => ?_)
    rw [slice_byte]
    simp [hf]

/-- The formula of an access of 1 to 16 bytes, put together from its bytes, is their
little-endian number. -/
theorem memoryFormula_means (h : s.Readable scope) (rules : Rules) (machine : Machine)
    (hpos : 1 ≤ access.bytes) (hmax : access.bytes ≤ 16) :
    ∃ f, Build.Answers rules (s.memoryFormula false machine access) (.ok f) ∧
      f.Means scope (Formed scope) (8 * access.bytes)
        fun v => Nat.ofDigits 256 (access.byteAddresses.map (s.byteValue machine v)) := by
  have hlength : access.byteAddresses.length = access.bytes := by
    simp [Access.byteAddresses, addressesFrom]
  unfold memoryFormula
  rw [if_neg (by omega), ← hlength]
  exact (Build.Denotes.number (Formed.hereditary scope)
    (fun address _ => byteFormula_means h rules machine address) (by omega) (by omega)).answers
    trivial

end Symbolic

/-! The map of the bytes. -/

/-- What each byte of memory is: a byte of a formula, by its place in it, or
nothing but its concrete value. -/
abbrev ByteMap := Address → Option (Formula × Nat)

namespace ByteMap

def write (map : ByteMap) (f : Formula) (access : Access) : ByteMap := fun address =>
  if distance access.address address < access.bytes then
    some (f, distance access.address address)
  else map address

def erase (map : ByteMap) (places : List Address) : ByteMap := fun address =>
  if address ∈ places then none else map address

def read (map : ByteMap) (machine : Machine) (v : Valuation) (address : Address) : Nat :=
  match map address with
  | some (f, k) => (f.value v >>> (8 * k)) % 256
  | none => (machine.byte address).toNat

end ByteMap

/-- A change of the bindings of memory. -/
inductive MemoryChange where
  | create (f : Formula) (access : Access) (comment : String) (instruction : Option Address)
  | concretizeByte (address : Address)
  | concretizeAccess (access : Access)
  | concretizeMemory

namespace MemoryChange

/-- The change to the bindings; an expression that is refused changes nothing. -/
def apply (s : Symbolic) : MemoryChange → Symbolic
  | create f access comment instruction =>
    match s.create false f (.memory access) comment instruction with
    | .ok (_, s) => s
    | .error _ => s
  | concretizeByte address => s.concretizeByte address
  | concretizeAccess access => s.concretizeAccess access
  | concretizeMemory => s.concretizeMemory

def record (map : ByteMap) : MemoryChange → ByteMap
  | create f access _ _ =>
    if f.width = access.bits ∧ access.bits % 8 = 0 then map.write f access else map
  | concretizeByte address => map.erase [address]
  | concretizeAccess access => map.erase access.byteAddresses
  | concretizeMemory => fun _ => none

def bindings (changes : List MemoryChange) : Symbolic := changes.foldl apply {}

def byteMap (changes : List MemoryChange) : ByteMap := changes.foldl record fun _ => none

/-- A formula that is bound is a word of at most 128 bits that was given out. -/
def Over (given : List Formula) : MemoryChange → Prop
  | create f _ _ _ => f ∈ given ∧ f.isArray = false ∧ f.width ≤ limit
  | _ => True

end MemoryChange

namespace Symbolic

/-- The state binds the bytes of the map, and can be read. -/
structure Represents (scope : Scope) (s : Symbolic) (map : ByteMap) : Prop where
  readable : s.Readable scope
  binding : ∀ address, map address = s.memory[address]?.bind fun cell =>
    (s.formula? cell.expression).map fun f => (f, cell.byte)

variable {scope : Scope} {s : Symbolic} {map : ByteMap}

theorem Represents.byteValue_eq (h : s.Represents scope map) (machine : Machine) (v : Valuation)
    (address : Address) : s.byteValue machine v address = map.read machine v address := by
  unfold byteValue ByteMap.read
  rw [h.binding]
  cases hcell : s.memory[address]? with
  | none => rfl
  | some cell =>
    obtain ⟨f, hf, -⟩ := h.readable.cells address cell hcell
    simp only [hf, Option.bind_some, Option.map_some, value_eq_eval]

theorem represents_empty (scope : Scope) : ({} : Symbolic).Represents scope fun _ => none :=
  ⟨readable_empty scope, fun address => by simp⟩

theorem Represents.erase (h : s.Represents scope map) {places : List Address} (hfewer : s.Fewer s')
    (hmemory : ∀ address : Address, s'.memory[address]? =
      if address ∈ places then none else s.memory[address]?) :
    s'.Represents scope (map.erase places) := by
  refine ⟨h.readable.fewer hfewer, fun address => ?_⟩
  rw [hmemory, ByteMap.erase]
  split
  · rfl
  · rw [h.binding]
    simp only [formula?, hfewer.expressions]

theorem getElem?_foldl_erase (memory : Std.ExtTreeMap Address Cell) (places : List Address)
    (address : Address) :
    (places.foldl (·.erase ·) memory)[address]? =
      if address ∈ places then none else memory[address]? := by
  induction places generalizing memory with
  | nil => simp
  | cons place places ih =>
    rw [List.foldl_cons, ih, Std.ExtTreeMap.getElem?_erase]
    by_cases heq : address = place
    · simp [heq]
    · have hcmp : compare place address ≠ .eq := mt Std.LawfulEqCmp.eq_of_compare (Ne.symm heq)
      simp [heq, hcmp]

theorem Readable.enter (h : s.Readable scope) (hx : x.formula.Formed scope)
    (hword : x.formula.isArray = false) (hwide : x.formula.width ≤ limit) :
    (s.enter x).Readable scope := by
  constructor
  · intro id g hg
    by_cases hid : id = s.expressions.size
    · rw [hid, formula?_enter] at hg
      cases hg
      exact ⟨hx, hword, hwide⟩
    · refine h.formulas id g ?_
      simpa [formula?, Symbolic.enter, Array.getElem?_push, hid] using hg
  · intro address cell hcell
    obtain ⟨g, hg, hlt⟩ := h.cells address cell hcell
    exact ⟨g, formula?_enter_of_some x hg, hlt⟩

theorem formula?_bindMemory (s : Symbolic) (keep : Bool) (access : Access) (id i : Nat) :
    (s.bindMemory keep access id).formula? i = s.formula? i := by
  rw [formula?, formula?, expressions_bindMemory]

theorem bytes_le_of_checkOrigin (hwide : f.width ≤ limit)
    (hcheck : checkOrigin f (.memory access) = .ok ()) : access.bytes ≤ 16 := by
  have hwidth := (checkOrigin_memory hcheck).1
  unfold Access.bytes limit at *
  omega

/-- An expression that fits its origin is bound to it. -/
theorem Readable.bindOrigin (h : s.Readable scope) (keep : Bool) {origin : Origin} {id : Nat}
    (hf : s.formula? id = some f) (hcheck : checkOrigin f origin = .ok ()) :
    (s.bindOrigin keep origin id).Readable scope := by
  cases origin with
  | register => exact ⟨h.formulas, h.cells⟩
  | volatile => exact h
  | memory access =>
    obtain ⟨hwidth, hwhole⟩ := checkOrigin_memory hcheck
    have hbytes := bytes_le_of_checkOrigin (h.formulas id f hf).2.2 hcheck
    show (s.bindMemory keep access id).Readable scope
    constructor
    · intro i g hg
      rw [formula?_bindMemory] at hg
      exact h.formulas i g hg
    · intro address cell hcell
      rw [formula?_bindMemory]
      rw [memory_bindMemory s keep id hbytes] at hcell
      split at hcell
      · next hin =>
        cases hcell
        refine ⟨f, hf, ?_⟩
        unfold Access.bytes at hin
        simp only
        omega
      · exact h.cells address cell hcell

/-- A formula that is recorded for an access is what its bytes are from then on. -/
theorem Represents.write (h : s.Represents scope map) (hf : f.Formed scope)
    (hword : f.isArray = false) (hwide : f.width ≤ limit)
    (hcheck : checkOrigin f (.memory access) = .ok ()) (hx : x.formula = f) :
    ((s.enter x).bindOrigin false (.memory access) s.expressions.size).Represents scope
      (map.write f access) := by
  subst hx
  have hentered := formula?_enter s x
  refine ⟨(h.readable.enter hf hword hwide).bindOrigin false hentered hcheck, fun address => ?_⟩
  have hbytes := bytes_le_of_checkOrigin hwide hcheck
  show map.write x.formula access address =
    ((s.enter x).bindMemory false access s.expressions.size).memory[address]?.bind _
  simp only [show ∀ i, ((s.enter x).bindOrigin false (.memory access) _).formula? i =
    (s.enter x).formula? i from formula?_bindMemory _ _ _ _]
  rw [memory_bindMemory _ _ _ hbytes, ByteMap.write]
  split
  · rw [Option.bind_some, hentered, Option.map_some]
  · rw [h.binding]
    show _ = s.memory[address]?.bind _
    cases hcell : s.memory[address]? with
    | none => rfl
    | some cell =>
      obtain ⟨g, hg, -⟩ := h.readable.cells address cell hcell
      rw [Option.bind_some, Option.bind_some, hg, formula?_enter_of_some x hg]

end Symbolic

namespace MemoryChange

variable {scope : Scope} {given : List Formula}

/-- One change keeps the bindings those of the map. -/
theorem apply_represents (hgiven : ∀ f ∈ given, f.Formed scope) (h : s.Represents scope map)
    {change : MemoryChange} (hover : change.Over given) :
    (apply s change).Represents scope (record map change) := by
  cases change with
  | create f access comment instruction =>
    obtain ⟨hf, hword, hwide⟩ := hover
    simp only [apply, record, create_eq]
    cases hcheck : checkOrigin f (.memory access) with
    | ok =>
      rw [if_pos (checkOrigin_memory hcheck)]
      exact h.write (hgiven f hf) hword hwide hcheck rfl
    | error =>
      rw [if_neg]
      · exact h
      · intro hfits
        simp [checkOrigin, hfits.1, hfits.2] at hcheck
  | concretizeByte place =>
    exact h.erase (s.fewer_concretizeByte place) fun address =>
      getElem?_foldl_erase s.memory [place] address
  | concretizeAccess access =>
    exact h.erase (s.fewer_concretizeAccess access) fun address =>
      getElem?_foldl_erase s.memory access.byteAddresses address
  | concretizeMemory =>
    exact ⟨h.readable.fewer s.fewer_concretizeMemory, fun address => by
      simp [apply, record, Symbolic.concretizeMemory]⟩

theorem foldl_represents (hgiven : ∀ f ∈ given, f.Formed scope) {changes : List MemoryChange}
    (hover : ∀ change ∈ changes, change.Over given) (h : s.Represents scope map) :
    (changes.foldl apply s).Represents scope (changes.foldl record map) := by
  induction changes generalizing s map with
  | nil => exact h
  | cons change changes ih =>
    exact ih (fun c hc => hover c (by simp [hc]))
      (apply_represents hgiven h (hover change (by simp)))

end MemoryChange

/-- **Memory is a map of bytes.** After any series of writes of formulas and
unbindings, with no whole writes kept, the formula of every access of 1 to 16 bytes
exists, and its value under every assignment and for every machine is the
little-endian number of the bytes of the map that the series leads to. -/
theorem memory_is_byteMap {ctx : Context} {given : List Formula} (h : ctx.InUse given)
    {changes : List MemoryChange} (hover : ∀ change ∈ changes, change.Over given) (rules : Rules)
    (machine : Machine) (access : Access) (hpos : 1 ≤ access.bytes) (hmax : access.bytes ≤ 16) :
    ∃ f ctx', (MemoryChange.bindings changes).memoryFormula false machine access rules ctx =
        .ok f ctx' ∧
      f.width = 8 * access.bytes ∧
      ∀ v, v.Fits ctx.scope → f.value v = Nat.ofDigits 256
        (access.byteAddresses.map ((MemoryChange.byteMap changes).read machine v)) := by
  have hrepresents := MemoryChange.foldl_represents h.formed.2 hover
    (Symbolic.represents_empty ctx.scope)
  obtain ⟨f, hf, hmeans⟩ :=
    Symbolic.memoryFormula_means hrepresents.readable rules machine hpos hmax
  obtain ⟨pool, hrun⟩ := hf ctx
  refine ⟨f, { ctx with pool }, hrun, hmeans.width_eq, fun v hv => ?_⟩
  rw [Formula.value_eq_eval, hmeans.eval_eq v hv]
  congr 1
  exact List.map_congr_left fun address _ => hrepresents.byteValue_eq machine v address

/-- Two variables at the end of the address space, the second over the third byte of
the first, where the address has come around to zero. -/
theorem memory_is_byteMap_around :
    ∃ (ctx : Context) (given : List Formula) (changes : List MemoryChange) (f : Formula)
      (ctx' : Context), ctx.InUse given ∧ (∀ change ∈ changes, change.Over given) ∧
      (MemoryChange.bindings changes).memoryFormula false {} (.fixed 0xfffffffffffffffe 32)
        ⟨true, true⟩ ctx = .ok f ctx' ∧
      f.width = 32 ∧
      ∀ v, v.Fits ctx.scope → f.value v = Nat.ofDigits 256
        [v.var 0 % 256, (v.var 0 >>> 8) % 256, v.var 1 % 256, (v.var 0 >>> 24) % 256] := by
  have one := Context.InUse.start.request (.newVariable 32 none 0) ⟨true, true⟩ trivial
    (f := .var 0 32) (by decide +kernel)
  have two := one.request (.newVariable 8 none 0) ⟨true, true⟩ trivial
    (f := .var 1 8) (by decide +kernel)
  let changes : List MemoryChange :=
    [.create (.var 0 32) (.fixed 0xfffffffffffffffe 32) "" none,
      .create (.var 1 8) (.fixed 0 8) "" none]
  have hover : ∀ change ∈ changes, change.Over [.var 1 8, .var 0 32] := by
    simp [changes, MemoryChange.Over, Formula.isArray, Formula.width, Word.limit]
  obtain ⟨f, ctx', hrun, hwidth, hvalue⟩ := memory_is_byteMap two hover ⟨true, true⟩ {}
    (.fixed 0xfffffffffffffffe 32) (by decide) (by decide)
  refine ⟨_, _, changes, f, ctx', two, hover, hrun, hwidth, fun v hv => (hvalue v hv).trans ?_⟩
  have hbytes : (Access.fixed 0xfffffffffffffffe 32).byteAddresses =
      [0xfffffffffffffffe, 0xffffffffffffffff, 0, 1] := by decide
  have hmap : [0xfffffffffffffffe, 0xffffffffffffffff, 0, 1].map (MemoryChange.byteMap changes) =
      [some (.var 0 32, 0), some (.var 0 32, 1), some (.var 1 8, 0), some (.var 0 32, 3)] := by
    decide +kernel
  simp only [List.map_cons, List.map_nil, List.cons.injEq, and_true] at hmap
  simp [hbytes, ByteMap.read, hmap, Formula.value_eq_eval, Formula.eval]

end Concolic
