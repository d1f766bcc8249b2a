import Concolic.Proofs.Proper
import Concolic.Proofs.Unbinding

/-
  The representation of the symbolic state.

  The table of expressions only grows, and what is bound to an expression is a part of
  the place that the expression was assigned to (`Symbolic.Grounded`): a root register
  to an expression of that register, and a byte of memory to the byte at its distance
  from the start of an access. Recording and unbinding keep this, also where they are
  cut short. So the formula of a register or of memory can be built wherever no array
  is bound in place of a word (`Grounded.registerFormula`, `Grounded.memoryFormula`).
-/

namespace Concolic

open Symbolic Register Word

open Access (distance)
open Build (Ensures Makes eq)

variable {access : Access} {x : Expression} {id i : Nat} {reg : Register} {scope : Scope}
  {s s' : Symbolic} {change : Expression → Expression} {e : Engine} {bytes words : Prop}

/-! Contexts. -/

/-- The second context has the variables of the first, and they are within range if those
of the first are. -/
structure Context.Widens (ctx ctx' : Context) : Prop where
  scope : ctx'.scope.Extends ctx.scope
  bounded : ctx.Bounded → ctx'.Bounded

theorem Context.Widens.refl (ctx : Context) : ctx.Widens ctx := ⟨.refl _, id⟩

theorem Context.Widens.trans {a b c : Context} (h₁ : a.Widens b) (h₂ : b.Widens c) :
    a.Widens c := ⟨h₁.scope.trans h₂.scope, fun hb => h₂.bounded (h₁.bounded hb)⟩

theorem Context.Widens.of_vars {ctx ctx' : Context} (h : ctx'.vars = ctx.vars) :
    ctx.Widens ctx' := by
  refine ⟨?_, ?_⟩
  · unfold Context.scope
    rw [h]
    exact .refl _
  · unfold Bounded
    rw [h]
    exact id

theorem Context.widens_addVariable (ctx : Context) {width : Nat} (hw : Formula.WordWidth width)
    (nickname : Option String) (value : Nat) (pool : Pool) :
    ctx.Widens { ctx.addVariable width nickname value with pool } :=
  ⟨ctx.addVariable_extends width nickname value, fun hb => addVariable_bounded hb hw nickname value⟩

/-! Expressions. -/

/-- What never changes of an expression. -/
def Expression.core (x : Expression) : Expression := { x with tainted := false, disassembly := "" }

/-- The expression is one of the root register with this number, and if `words` then it
is no array. -/
def Expression.OfRoot (words : Prop) (key : Nat) (x : Expression) : Prop :=
  ∃ reg : Register, x.origin = .register reg ∧ reg.id = key ∧ reg.isRoot = true ∧ reg.Known ∧
    x.formula.width = reg.bits ∧ (words → x.formula.isArray = false)

/-- The expression is a word of whole bytes that was assigned to the access. -/
structure Expression.OfAccess (access : Access) (x : Expression) : Prop where
  origin : x.origin = .memory access
  width_eq : x.formula.width = access.bits
  whole : access.bits % 8 = 0
  bound : access.bits ≤ Word.limit
  word : x.formula.isArray = false

section

variable {x y : Expression} (h : y.core = x.core)

include h

theorem Expression.formula_of_core : y.formula = x.formula := by
  show y.core.formula = x.core.formula
  rw [h]

theorem Expression.origin_of_core : y.origin = x.origin := by
  show y.core.origin = x.core.origin
  rw [h]

theorem Expression.OfRoot.congr {key : Nat} (hx : x.OfRoot words key) : y.OfRoot words key := by
  unfold OfRoot
  rw [formula_of_core h, origin_of_core h]
  exact hx

theorem Expression.OfAccess.congr (hx : x.OfAccess access) : y.OfAccess access := by
  obtain ⟨horigin, hwidth, hwhole, hbound, hword⟩ := hx
  rw [← formula_of_core h] at hwidth hword
  rw [← origin_of_core h] at horigin
  exact ⟨horigin, hwidth, hwhole, hbound, hword⟩

end

/-- The bytes of an access lie at their distances from its start. -/
theorem Access.eq_add_distance (start address : Address) :
    address = start + (distance start address).toUInt64 := by
  apply UInt64.toNat.inj
  have hs := UInt64.toNat_lt start
  have ha := UInt64.toNat_lt address
  have hd : (distance start address).toUInt64.toNat = distance start address := by
    unfold distance
    simp
  rw [UInt64.toNat_add, hd]
  simp only [distance, UInt64.toNat_sub]
  omega

theorem Access.bytes_le (h : access.bits ≤ limit) : access.bytes ≤ 16 := by
  unfold limit at h
  unfold bytes
  omega

namespace Symbolic

/-- The table of the second state starts with the expressions of the first. -/
def Grows (s s' : Symbolic) : Prop :=
  ∀ (i : Nat) (x : Expression), s.expressions[i]? = some x →
    s'.expressions[i]?.map Expression.core = some x.core

theorem Grows.refl (s : Symbolic) : s.Grows s := fun i x hx => by rw [hx]; rfl

theorem Grows.of_expressions (h : s'.expressions = s.expressions) :
    s.Grows s' := fun i x hx => by rw [h, hx]; rfl

theorem Grows.trans {a b c : Symbolic} (h₁ : a.Grows b) (h₂ : b.Grows c) : a.Grows c := by
  intro i x hx
  obtain ⟨y, hy, hcore⟩ := Option.map_eq_some_iff.1 (h₁ i x hx)
  rw [← hcore]
  exact h₂ i y hy

theorem Grows.exists (h : s.Grows s') (hx : s.expressions[i]? = some x) :
    ∃ y, s'.expressions[i]? = some y ∧ y.core = x.core :=
  Option.map_eq_some_iff.1 (h i x hx)

theorem Grows.size_le (h : s.Grows s') : s.expressions.size ≤ s'.expressions.size := by
  by_contra hlt
  obtain ⟨y, hy, -⟩ := h.exists (Array.getElem?_eq_getElem (Nat.lt_of_not_le hlt))
  rw [Array.getElem?_eq_none (le_refl _)] at hy
  cases hy

theorem grows_push (h : s'.expressions = s.expressions.push x) : s.Grows s' := by
  intro i y hy
  have hlt : i < s.expressions.size := (getElem?_eq_some_iff.1 hy).1
  rw [h, Array.getElem?_push, if_neg (by omega), hy]
  rfl

theorem Updates.grows (h : Updates id change s s')
    (hcore : ∀ x, (change x).core = x.core) : s.Grows s' := by
  intro i x hx
  rw [h.expressions, hx]
  split
  · rw [Option.map_some, Option.map_some, hcore]
  · rfl

theorem Updates.exists (h : Updates id change s s') (hcore : ∀ x, (change x).core = x.core)
    {y : Expression} (hy : s'.expressions[i]? = some y) :
    ∃ x, s.expressions[i]? = some x ∧ y.core = x.core := by
  rw [h.expressions] at hy
  split at hy
  · obtain ⟨x, hx, rfl⟩ := Option.map_eq_some_iff.1 hy
    exact ⟨x, hx, hcore x⟩
  · exact ⟨y, hy, rfl⟩

/-- The invariant of the state. If `words` then root registers are bound to words, and
if `bytes` then bytes of memory are bound to bytes of words. -/
structure Grounded (words bytes : Prop) (arch : Architecture) (scope : Scope) (s : Symbolic) :
    Prop extends Placed s where
  ids : ∀ (i : Nat) (x : Expression), s.expressions[i]? = some x → x.id = i
  formulas : ∀ (i : Nat) (x : Expression), s.expressions[i]? = some x → x.formula.Formed scope
  registers : ∀ key id : Nat, s.registers[key]? = some id →
    ∃ x, s.expressions[id]? = some x ∧ x.OfRoot words key
  cells : ∀ (address : Address) (cell : Cell), s.memory[address]? = some cell →
    ∃ x, s.expressions[cell.expression]? = some x ∧ x.origin.Covers (.byte address)
  memory : bytes → ∀ (address : Address) (cell : Cell), s.memory[address]? = some cell →
    ∃ x access, s.expressions[cell.expression]? = some x ∧ x.OfAccess access ∧
      cell.byte < access.bytes ∧ address = access.address + cell.byte.toUInt64
  aligned : bytes → ∀ w ∈ s.aligned, ∃ x access, s.expressions[w.expression]? = some x ∧
    x.OfAccess access ∧ access.address = w.address ∧ access.bytes = w.bytes
  path : ∀ p ∈ s.constraints, ∀ b ∈ p.branches, b.constraint.Formed scope
  array : ∀ f, s.array = some f → f.IndexedBy scope arch.addressWidth

namespace Grounded

variable {words bytes : Prop} {arch : Architecture} {scope : Scope} {s s' : Symbolic}

theorem empty (words bytes : Prop) (arch : Architecture) (scope : Scope) :
    ({} : Symbolic).Grounded words bytes arch scope where
  ids i x hx := by simp at hx
  formulas i x hx := by simp at hx
  registers key id h := by simp at h
  memory _ address cell h := by simp at h
  aligned _ w hw := by cases hw
  cells _ _ h := by simp at h
  writes _ hw := by cases hw
  single _ hw := by cases hw
  path p hp := by simp at hp
  array f hf := by cases hf

section

variable (h : s.Grounded words bytes arch scope)

include h

theorem mono {later : Scope} (hle : later.Extends scope) : s.Grounded words bytes arch later where
  __ := h
  formulas i x hx := (h.formulas i x hx).mono hle
  path p hp b hb := (h.path p hp b hb).mono hle
  array f hf := (h.array f hf).mono hle

theorem weaken {words' bytes' : Prop} (hw : words' → words) (hb : bytes' → bytes) :
    s.Grounded words' bytes' arch scope where
  __ := h
  registers key id hid := by
    obtain ⟨x, hx, reg, horigin, hkey, hroot, hknown, hwidth, hword⟩ := h.registers key id hid
    exact ⟨x, hx, reg, horigin, hkey, hroot, hknown, hwidth, fun hs => hword (hw hs)⟩
  memory hs := h.memory (hb hs)
  aligned hs := h.aligned (hb hs)

/-- A table that has grown, with no more bindings. -/
theorem of_grows (hgrows : s.Grows s')
    (htable : ∀ (i : Nat) (x : Expression), s'.expressions[i]? = some x →
      x.id = i ∧ x.formula.Formed scope)
    (hregisters : ∀ key id : Nat, s'.registers[key]? = some id → s.registers[key]? = some id)
    (hmemory : ∀ (address : Address) (cell : Cell), s'.memory[address]? = some cell →
      s.memory[address]? = some cell)
    (haligned : ∀ w ∈ s'.aligned, w ∈ s.aligned) (hpath : s'.constraints = s.constraints)
    (harray : s'.array = s.array ∨ s'.array = none) : s'.Grounded words bytes arch scope where
  ids i x hx := (htable i x hx).1
  formulas i x hx := (htable i x hx).2
  registers key id hid := by
    obtain ⟨x, hx, hroot⟩ := h.registers key id (hregisters key id hid)
    obtain ⟨y, hy, hcore⟩ := hgrows.exists hx
    exact ⟨y, hy, hroot.congr hcore⟩
  cells address cell hcell := by
    obtain ⟨x, hx, hcovers⟩ := h.cells address cell (hmemory address cell hcell)
    obtain ⟨y, hy, hcore⟩ := hgrows.exists hx
    exact ⟨y, hy, Expression.origin_of_core hcore ▸ hcovers⟩
  memory hb address cell hcell := by
    obtain ⟨x, access, hx, hof, hplace⟩ := h.memory hb address cell (hmemory address cell hcell)
    obtain ⟨y, hy, hcore⟩ := hgrows.exists hx
    exact ⟨y, access, hy, hof.congr hcore, hplace⟩
  writes w hw := by
    obtain ⟨x, access, hx, horigin, hplace⟩ := h.writes w (haligned w hw)
    obtain ⟨y, hy, hcore⟩ := hgrows.exists hx
    exact ⟨y, access, hy, (Expression.origin_of_core hcore).trans horigin, hplace⟩
  single w hw w' hw' := h.single w (haligned w hw) w' (haligned w' hw')
  aligned hb w hw := by
    obtain ⟨x, access, hx, hof, hplace⟩ := h.aligned hb w (haligned w hw)
    obtain ⟨y, hy, hcore⟩ := hgrows.exists hx
    exact ⟨y, access, hy, hof.congr hcore, hplace⟩
  path := by rw [hpath]; exact h.path
  array f hf := by
    rcases harray with hsame | hnone
    · exact h.array f (hsame ▸ hf)
    · rw [hnone] at hf
      cases hf

theorem fewer (hfewer : s.Fewer s') (hpath : s'.constraints = s.constraints)
    (harray : s'.array = s.array ∨ s'.array = none) : s'.Grounded words bytes arch scope := by
  refine h.of_grows (.of_expressions hfewer.expressions) (fun i x hx => ?_) hfewer.registers
    hfewer.memory hfewer.aligned hpath harray
  rw [hfewer.expressions] at hx
  exact ⟨h.ids i x hx, h.formulas i x hx⟩

theorem updates (hs : Updates id change s s') (hcore : ∀ x, (change x).core = x.core) :
    s'.Grounded words bytes arch scope := by
  refine h.of_grows (hs.grows hcore) (fun i y hy => ?_) (fun _ _ h => hs.registers ▸ h)
    (fun _ _ h => hs.memory ▸ h) (fun _ h => hs.aligned ▸ h) hs.constraints (.inl hs.array)
  obtain ⟨x, hx, hsame⟩ := hs.exists hcore hy
  rw [Expression.formula_of_core hsame]
  exact ⟨(congrArg Expression.id hsame).trans (h.ids i x hx), h.formulas i x hx⟩

theorem withArray {f : Formula} (hf : f.IndexedBy scope arch.addressWidth) :
    ({ s with array := some f } : Symbolic).Grounded words bytes arch scope where
  __ := h
  array _ hg := Option.some.inj hg ▸ hf

theorem enter (hid : x.id = s.expressions.size) (hf : x.formula.Formed scope) :
    (s.enter x).Grounded words bytes arch scope := by
  refine h.of_grows (grows_push rfl) (fun i y hy => ?_) (fun _ _ h => h) (fun _ _ h => h)
    (fun _ h => h) rfl (.inl rfl)
  rw [Symbolic.enter, Array.getElem?_push] at hy
  split at hy
  · next heq =>
    obtain rfl := Option.some.inj hy
    exact ⟨hid.trans heq.symm, hf⟩
  · exact ⟨h.ids i y hy, h.formulas i y hy⟩

theorem bindRegister (hx : s.expressions[id]? = some x) (hof : x.OfRoot words reg.id) :
    ({ s with registers := s.registers.insert reg.id id } : Symbolic).Grounded words bytes arch
      scope where
  __ := h
  registers key i hi := by
    rw [Std.ExtTreeMap.getElem?_insert] at hi
    split at hi
    · next heq =>
      have hkey : reg.id = key := compare_eq_iff_eq.1 heq
      obtain rfl := Option.some.inj hi
      exact ⟨x, hx, hkey ▸ hof⟩
    · exact h.registers key i hi

theorem bindMemory (keep : Bool) (hx : s.expressions[id]? = some x)
    (horigin : x.origin = .memory access) (hof : bytes → x.OfAccess access) :
    (s.bindMemory keep access id).Grounded words bytes arch scope where
  ids := by rw [expressions_bindMemory]; exact h.ids
  formulas := by rw [expressions_bindMemory]; exact h.formulas
  registers := by rw [expressions_bindMemory, registers_bindMemory]; exact h.registers
  cells address cell hcell := by
    rw [expressions_bindMemory]
    rw [memory_bindMemory_eq] at hcell
    rcases getElem?_bindBytes_cases address access.byteAddresses 0 with
      ⟨hmem, i, hbound⟩ | ⟨-, hsame⟩
    · rw [hbound] at hcell
      cases hcell
      exact ⟨x, hx, horigin ▸ hmem⟩
    · exact h.cells address cell (hsame _ _ ▸ hcell)
  memory hb address cell hcell := by
    rw [expressions_bindMemory]
    rw [memory_bindMemory _ _ _ (Access.bytes_le (hof hb).bound)] at hcell
    split at hcell
    · next hlt =>
      obtain rfl := Option.some.inj hcell
      exact ⟨x, access, hx, hof hb, hlt, Access.eq_add_distance _ _⟩
    · exact h.memory hb address cell hcell
  aligned hb w hw := by
    rw [expressions_bindMemory]
    -- the whole write is the new one, or one that does not overlap it
    rcases aligned_bindMemory _ _ _ hw with ⟨-, rfl⟩ | hold
    · exact ⟨x, access, hx, hof hb, rfl, rfl⟩
    · exact h.aligned hb w (List.mem_filter.1 hold).1
  writes w hw := by
    rw [expressions_bindMemory]
    rcases aligned_bindMemory _ _ _ hw with ⟨-, rfl⟩ | hold
    · exact ⟨x, access, hx, horigin, rfl, rfl⟩
    · exact h.writes w (List.mem_filter.1 hold).1
  single w hw w' hw' haddress hbytes := by
    cases keep with
    | false =>
      exact h.single w (List.mem_filter.1 hw).1 w' (List.mem_filter.1 hw').1 haddress hbytes
    | true =>
      -- the new one is alone at its place
      simp only [Symbolic.bindMemory, if_true, keepAligned, eraseAligned, List.mem_cons,
        List.mem_filter, Bool.not_eq_true', Bool.and_eq_false_imp, beq_iff_eq,
        beq_eq_false_iff_ne] at hw hw'
      rcases hw with rfl | ⟨hw, hother⟩
      · exact hw'.resolve_right fun h => h.2 haddress hbytes
      · rcases hw' with rfl | ⟨hw', -⟩
        · exact absurd hbytes.symm (hother haddress.symm)
        · exact h.single w (List.mem_filter.1 hw).1 w' (List.mem_filter.1 hw').1 haddress hbytes
  path := by
    have hsame : (s.bindMemory keep access id).constraints = s.constraints := by
      cases keep <;> rfl
    rw [hsame]
    exact h.path
  array := by
    have hsame : (s.bindMemory keep access id).array = s.array :=
      s.array_bindOrigin keep (.memory access) id
    rw [hsame]
    exact h.array

/-! The formulas of registers and memory. -/

theorem registerFormula (hreg : reg.Known) (machine : Machine) (rules : Rules) :
    Makes rules words (s.registerFormula machine reg) fun f =>
      f.Proper scope words ∧ f.width = reg.bits := by
  unfold Symbolic.registerFormula
  cases hid : s.registers[reg.parent]? with
  | none =>
    have hbinding : s.registerBinding? reg = none := by rw [registerBinding?, hid]; rfl
    rw [hbinding]
    exact .constant scope words _ fun _ => hreg.wordWidth
  | some id =>
    obtain ⟨x, hx, root, -, hkey, hisRoot, hknown, hwidth, hword⟩ := h.registers _ id hid
    obtain ⟨hbits, hbound, hself⟩ := hreg.of_root hknown hisRoot hkey
    have hproper : x.formula.Proper scope words :=
      ⟨h.formulas id x hx, hword, fun _ => hwidth ▸ hknown.wordWidth⟩
    have hbinding : s.registerBinding? reg = some x := by rw [registerBinding?, hid]; exact hx
    rw [hbinding]
    dsimp only
    split
    · next hroot => exact .pure ⟨hproper, hwidth.trans (congrArg bits (hself hroot))⟩
    -- a part of the root: it lies within the root, whichever architecture the root is of
    · have hpos := hreg.wordWidth.1
      refine (Build.extract_makes hproper fun _ => ?_).mono (fun hw => hw) fun f hf => ⟨hf.1, ?_⟩
      · rw [hwidth, hbits]
        unfold high
        omega
      · rw [hf.2]
        unfold high
        omega

theorem mergeRegister {value : Formula} (hvalue : value.Proper scope words) (machine : Machine)
    (rules : Rules) :
    Ensures rules (s.mergeRegister arch machine reg value) (Formula.Proper scope words) := by
  refine mergeRegister_ensures (fun hc => (Call.proper rules hc).mono fun _ hf => hf.1) hvalue
    fun root hroot => ?_
  have hknown : root.Known := ⟨arch, Architecture.has_of_register? hroot⟩
  exact (h.registerFormula hknown machine rules).ensures.mono fun _ hf => hf.1

end

section

variable (h : s.Grounded words bytes arch scope) (hbytes : words → bytes) (machine : Machine)
  (rules : Rules)

include h hbytes

/-- The expression that bytes are bound to is found if words are bound, and its formula is
proper. -/
theorem lookup {sure : Prop} (hsure : sure → words) (part : Access → Prop)
    (hpart : ∀ access, part access → 1 ≤ access.bytes)
    (hfound : bytes → ∃ x access, s.expressions[id]? = some x ∧ x.OfAccess access ∧ part access)
    {k : Expression → Build Formula} {post : Formula → Prop}
    (hk : ∀ x, x.formula.Proper scope words →
      (bytes → ∃ access, x.OfAccess access ∧ part access) → Makes rules sure (k x) post) :
    Makes rules sure (ofExcept (s.expression id) >>= k) post := by
  cases hx : s.expressions[id]? with
  | none =>
    simp only [expression, hx]
    refine .throw _ fun hs => ?_
    obtain ⟨x, access, hsome, -⟩ := hfound (hbytes (hsure hs))
    rw [hx] at hsome
    cases hsome
  | some x =>
    have hof : bytes → ∃ access, x.OfAccess access ∧ part access := by
      intro hb
      obtain ⟨y, access, hsome, hof⟩ := hfound hb
      rw [hx] at hsome
      obtain rfl := Option.some.inj hsome
      exact ⟨access, hof⟩
    have hproper : x.formula.Proper scope words := by
      refine ⟨h.formulas id x hx, fun hw => ?_, fun hw => ?_⟩
      · obtain ⟨access, haccess, -⟩ := hof (hbytes hw)
        exact haccess.word
      · obtain ⟨access, haccess, hin⟩ := hof (hbytes hw)
        have hpos := hpart access hin
        refine ⟨?_, haccess.width_eq ▸ haccess.bound⟩
        rw [haccess.width_eq]
        unfold Access.bytes at hpos
        omega
    exact makes_found hx (hk x hproper hof)

theorem byteFormula (address : Address) :
    Makes rules words (s.byteFormula machine address) fun f =>
      f.Proper scope words ∧ f.width = 8 := by
  have hword : Formula.WordWidth 8 := ⟨by decide, by decide⟩
  unfold Symbolic.byteFormula
  cases hcell : s.memory[address]? with
  | none => exact .constant scope words _ fun _ => hword
  | some cell =>
    refine h.lookup hbytes rules id (fun access => cell.byte < access.bytes)
      (fun access hlt => by omega) (fun hb => ?_) fun x hproper hof => ?_
    · obtain ⟨x, access, hx, hof, hlt, -⟩ := h.memory hb address cell hcell
      exact ⟨x, access, hx, hof, hlt⟩
    · refine (Build.extract_makes hproper fun hw => ?_).mono id fun f hf => ⟨hf.1, ?_⟩
      · obtain ⟨access, hof, hlt⟩ := hof (hbytes hw)
        rw [hof.width_eq]
        unfold Access.bytes at hlt
        omega
      · rw [hf.2]
        omega

theorem memoryFormula (keep : Bool) (access : Access) :
    Makes rules (words ∧ 1 ≤ access.bytes ∧ access.bytes ≤ 16)
      (s.memoryFormula keep machine access) fun f =>
        f.Proper scope words ∧ (bytes → f.width = 8 * access.bytes) := by
  unfold Symbolic.memoryFormula
  split
  · next hzero => exact .throw _ fun hs => by omega
  · next hpos =>
    split
    · next id hid =>
      -- a whole write of the place, which is of an access with this address and size
      have hfound : ∃ w ∈ s.aligned, w.bytes = access.bytes ∧ w.expression = id := by
        cases keep with
        | false => cases hid
        | true =>
          obtain ⟨w, hw, rfl⟩ := Option.map_eq_some_iff.1 hid
          have hplace := List.find?_some hw
          simp only [Bool.and_eq_true, beq_iff_eq] at hplace
          exact ⟨w, List.mem_of_find?_eq_some hw, hplace.2, rfl⟩
      obtain ⟨w, hw, hbytes', rfl⟩ := hfound
      refine h.lookup hbytes rules And.left (fun other => other.bytes = access.bytes)
        (fun other hsize => by omega) (fun hb => ?_) fun x hproper hof => ?_
      · obtain ⟨x, other, hx, hof, -, hsize⟩ := h.aligned hb w hw
        exact ⟨x, other, hx, hof, hsize.trans hbytes'⟩
      · refine .pure ⟨hproper, fun hb => ?_⟩
        obtain ⟨other, hof, hsize⟩ := hof hb
        have hwhole := hof.whole
        rw [hof.width_eq, ← hsize]
        unfold Access.bytes
        omega
    · have hparts := Makes.mapM access.byteAddresses.reverse
        fun address _ => h.byteFormula hbytes machine rules address
      refine (hparts.mono And.left fun _ => id).bind fun fs hfs => ?_
      have hlength : fs.length = access.bytes := by
        rw [hfs.1]
        simp [Access.byteAddresses, Access.addressesFrom]
      rw [← hlength]
      exact (Build.concatMany_makes hfs.2).mono id fun f hf => ⟨hf.1, fun _ => hf.2⟩

end

end Grounded

end Symbolic

/-! The path. -/

theorem Formula.Formed.proper {f : Formula} (h : f.Formed scope) :
    f.Proper scope False := ⟨h, False.elim, False.elim⟩

/-- The conditions of the outcomes of a jump obey the rules, if they can be built. -/
theorem Engine.outcomes_formed {pc : Formula} (h : pc.Formed scope) (rules : Rules)
    (source target : Address) :
    Ensures rules (outcomes pc source target) fun bs =>
      ∀ b ∈ bs, b.constraint.Formed scope := by
  have heq : ∀ {g : Formula}, g.Formed scope →
      Ensures rules (eq pc g) (Formula.Formed scope) := fun hg =>
    (Call.proper rules (.compare h.proper hg.proper)).mono fun _ hr => hr.1.formed
  have houtcome : ∀ {g : Formula} (address : Nat), g.Formed scope →
      Ensures rules (outcome pc source target g address) fun b =>
        b.constraint.Formed scope := fun address hg => (heq hg).bind fun c hc => .pure hc
  have hsingle : Ensures rules (do
      let dest ← Build.constant target.toNat pc.width
      let constraint ← eq pc dest
      return [{ taken := true, source, target, constraint }]) fun bs : List Branch =>
        ∀ b ∈ bs, b.constraint.Formed scope := by
    refine (Makes.constant scope False target.toNat False.elim).ensures.bind fun d hd => ?_
    exact (heq hd.1.formed).bind fun c hc => .pure (by simpa using hc)
  cases pc with
  | ite cond onTrue onFalse =>
    have htrue : onTrue.Formed scope := h.operand (by simp)
    have hfalse : onFalse.Formed scope := h.operand (by simp)
    simp only [outcomes]
    split
    · split
      · refine (houtcome _ htrue).bind fun first hfirst => ?_
        refine (houtcome _ hfalse).bind fun second hsecond => ?_
        exact .pure (by simpa using ⟨hfirst, hsecond⟩)
      · exact hsingle
    · exact hsingle
  | _ => exact hsingle

theorem Symbolic.Grounded.withPath {arch : Architecture} (h : s.Grounded words bytes arch scope)
    {constraints : Array PathConstraint}
    (hpath : ∀ p ∈ constraints, ∀ b ∈ p.branches, b.constraint.Formed scope) :
    ({ s with constraints } : Symbolic).Grounded words bytes arch scope where
  __ := h
  path := hpath

/-! Runs. -/

/-- A run answers with a value and a state for which `answers` is so, or fails in a state
for which `errors` is. -/
def Yields {σ α : Type} (answers : α → σ → Prop) (errors : σ → Prop) :
    EStateM.Result Error σ α → Prop
  | .ok a s => answers a s
  | .error _ s => errors s

namespace Yields

variable {σ α β : Type} {answers : α → σ → Prop} {errors : σ → Prop}

theorem mono {answers' : α → σ → Prop} {errors' : σ → Prop} {r : EStateM.Result Error σ α}
    (h : Yields answers errors r) (ha : ∀ a s, answers a s → answers' a s)
    (he : ∀ s, errors s → errors' s) : Yields answers' errors' r := by
  cases r with
  | ok a s => exact ha a s h
  | error e s => exact he s h

theorem bind {answers' : β → σ → Prop} {x : EStateM Error σ α} {k : α → EStateM Error σ β} {s : σ}
    (hx : Yields answers errors (x s)) (hk : ∀ a s, answers a s → Yields answers' errors (k a s)) :
    Yields answers' errors ((x >>= k) s) := by
  show Yields answers' errors (EStateM.bind x k s)
  unfold EStateM.bind
  revert hx
  cases x s with
  | ok a s' => exact hk a s'
  | error e s' => exact fun h => h

end Yields

/-! Engines. -/

def Engine.Grounded (words bytes : Prop) (e : Engine) : Prop :=
  e.symbolic.Grounded words bytes e.arch e.scope

theorem Engine.Grounded.assign (h : e.Grounded words bytes) (hbytes : bytes → words)
    {origin : Origin} (hid : x.id = e.symbolic.expressions.size) (horigin : x.origin = origin)
    (hformed : x.formula.Formed e.scope)
    (hword : words → x.formula.isArray = false ∧ x.formula.width ≤ limit)
    (hcheck : checkOrigin x.formula origin = .ok ())
    (hknown : ∀ reg, origin = .register reg → reg.Known) (m : Machine) :
    (e.assign x origin m).Grounded words bytes := by
  have hentered := Grounded.enter h hid hformed
  have hlast : (e.symbolic.enter x).expressions[e.symbolic.expressions.size]? = some x :=
    Array.getElem?_push_size
  cases origin with
  | volatile => exact hentered
  | register reg =>
    obtain ⟨hroot, hwidth⟩ := checkOrigin_register hcheck
    exact hentered.bindRegister hlast
      ⟨reg, horigin, rfl, hroot, hknown reg rfl, hwidth, fun hw => (hword hw).1⟩
  | memory access =>
    obtain ⟨hwidth, hwhole⟩ := Symbolic.checkOrigin_memory hcheck
    refine hentered.bindMemory _ hlast horigin fun hb => ?_
    obtain ⟨hnotArray, hwide⟩ := hword (hbytes hb)
    exact ⟨horigin, hwidth, hwhole, hwidth ▸ hwide, hnotArray⟩

/-- The memory array, made or to be made, has an index of the width of addresses. -/
theorem Engine.Grounded.indexed (h : e.Grounded words bytes) :
    e.array.IndexedBy e.scope e.arch.addressWidth := by
  unfold array
  cases harray : e.symbolic.array with
  | some f => exact h.array f harray
  | none => exact ⟨.intro trivial trivial (by simp), rfl, rfl⟩

end Concolic
