import Concolic.Process
import Concolic.Proofs.Change

/-
  What unbinding leaves.

  Unbinding takes bindings away and touches nothing else (`Symbolic.Fewer`), so
  that the places that it frees fall back to their concrete values and the
  agreement of the two states is kept. The modes that drop expressions after an
  instruction do so by unbinding, which frees the places that are bound to them
  and no others (`Symbolic.Frees`).
-/

namespace Concolic

/-- A place that can be bound: a root register, or a byte of memory. -/
inductive Place where
  | root (id : Nat)
  | byte (address : Address)

/-- The places that an expression was assigned to. -/
def Origin.Covers : Origin → Place → Prop
  | .register reg, .root id => reg.id = id
  | .memory access, .byte address => address ∈ access.byteAddresses
  | _, _ => False

/-- What a place is bound to. -/
def Symbolic.cell? (s : Symbolic) : Place → Option Cell
  | .root id => s.registers[id]?.map fun expression => { expression, byte := 0 }
  | .byte address => s.memory[address]?

namespace Symbolic

/-- The second state has the expressions of the first and no other bindings. -/
structure Fewer (s s' : Symbolic) : Prop where
  expressions : s'.expressions = s.expressions
  registers : ∀ key id : Nat, s'.registers[key]? = some id → s.registers[key]? = some id
  memory : ∀ (address : Address) (cell : Cell), s'.memory[address]? = some cell →
    s.memory[address]? = some cell
  aligned : ∀ w ∈ s'.aligned, w ∈ s.aligned

theorem Fewer.trans {a b c : Symbolic} (h₁ : a.Fewer b) (h₂ : b.Fewer c) : a.Fewer c where
  expressions := h₂.expressions.trans h₁.expressions
  registers key id h := h₁.registers key id (h₂.registers key id h)
  memory address cell h := h₁.memory address cell (h₂.memory address cell h)
  aligned w h := h₁.aligned w (h₂.aligned w h)

/-- Whole writes are bound to expressions that were assigned to their places, each place to
one. -/
structure Placed (s : Symbolic) : Prop where
  writes : ∀ w ∈ s.aligned, ∃ x access, s.expressions[w.expression]? = some x ∧
    x.origin = .memory access ∧ access.address = w.address ∧ access.bytes = w.bytes
  single : ∀ w ∈ s.aligned, ∀ w' ∈ s.aligned, w'.address = w.address → w'.bytes = w.bytes → w' = w

theorem Placed.fewer {s s' : Symbolic} (h : s.Placed) (hfewer : s.Fewer s') : s'.Placed where
  writes w hw := by rw [hfewer.expressions]; exact h.writes w (hfewer.aligned w hw)
  single w hw w' hw' := h.single w (hfewer.aligned w hw) w' (hfewer.aligned w' hw')

/-- A whole write is found under its place. -/
theorem Placed.aligned? {s : Symbolic} (h : s.Placed) {w : AlignedWrite} (hw : w ∈ s.aligned) :
    s.aligned? w.address w.bytes = some w.expression := by
  have hsome : (s.aligned.find? fun v => v.address == w.address && v.bytes == w.bytes).isSome :=
    List.find?_isSome.2 ⟨w, hw, by simp⟩
  obtain ⟨found, hfound⟩ := Option.isSome_iff_exists.1 hsome
  unfold Symbolic.aligned?
  have hkey := List.find?_some hfound
  simp only [Bool.and_eq_true, beq_iff_eq] at hkey
  rw [hfound, h.single w hw found (List.mem_of_find?_eq_some hfound) hkey.1 hkey.2]
  rfl

/-- Bytes are bound to an expression where they are asked to be, whatever was bound. -/
theorem getElem?_bindBytes_cases (address : Address) : ∀ (l : List Address) (byte : Nat),
    (address ∈ l ∧ ∃ i, ∀ memory id, (bindBytes memory id byte l)[address]? = some ⟨id, i⟩) ∨
      (address ∉ l ∧ ∀ memory id, (bindBytes memory id byte l)[address]? = memory[address]?)
  | [], _ => .inr ⟨List.not_mem_nil, fun _ _ => rfl⟩
  | first :: rest, byte => by
    simp only [bindBytes, List.mem_cons, not_or]
    rcases getElem?_bindBytes_cases address rest (byte + 1) with ⟨hmem, i, hbound⟩ | ⟨hmem, hsame⟩
    · exact .inl ⟨.inr hmem, i, fun _ _ => hbound _ _⟩
    · simp only [hsame, Std.ExtTreeMap.getElem?_insert]
      by_cases heq : address = first
      · subst heq
        exact .inl ⟨.inl rfl, byte % 256, fun _ _ => if_pos Std.ReflCmp.compare_self⟩
      · exact .inr ⟨⟨heq, hmem⟩, fun _ _ => if_neg fun h =>
          heq (Std.LawfulEqOrd.eq_of_compare h).symm⟩

theorem memory_bindMemory_eq (s : Symbolic) (keep : Bool) (access : Access) (id : Nat) :
    (s.bindMemory keep access id).memory = bindBytes s.memory id 0 access.byteAddresses := by
  cases keep <;> rfl

/-- What an origin covers is bound to the new expression, to a part that does not depend on
what was bound. -/
theorem cell?_bindOrigin_of_covers {origin : Origin} {place : Place} (h : origin.Covers place) :
    ∃ byte, ∀ (s : Symbolic) (keep : Bool) (id : Nat),
      (s.bindOrigin keep origin id).cell? place = some ⟨id, byte⟩ := by
  cases origin with
  | volatile => cases place <;> exact h.elim
  | register reg =>
    cases place with
    | byte address => exact h.elim
    | root key =>
      obtain rfl : reg.id = key := h
      refine ⟨0, fun s keep id => ?_⟩
      simp only [bindOrigin, cell?, Std.ExtTreeMap.getElem?_insert_self, Option.map_some]
  | memory access =>
    cases place with
    | root key => exact h.elim
    | byte address =>
      obtain ⟨byte, hbound⟩ :=
        ((getElem?_bindBytes_cases address _ 0).resolve_right fun hout => hout.1 h).2
      refine ⟨byte, fun s keep id => ?_⟩
      show (s.bindMemory keep access id).memory[address]? = _
      rw [memory_bindMemory_eq, hbound]

/-- A binding leaves what its origin does not cover. -/
theorem cell?_bindOrigin {origin : Origin} {place : Place} (s : Symbolic) (keep : Bool) (id : Nat)
    (h : ¬ origin.Covers place) : (s.bindOrigin keep origin id).cell? place = s.cell? place := by
  cases origin with
  | volatile => rfl
  | register reg =>
    cases place with
    | byte address => rfl
    | root key =>
      have hne : ¬ compare reg.id key = .eq := fun heq => h (compare_eq_iff_eq.1 heq)
      simp only [bindOrigin, cell?, Std.ExtTreeMap.getElem?_insert, if_neg hne]
  | memory access =>
    cases place with
    | root key =>
      show (s.bindMemory keep access id).registers[key]?.map _ = _
      rw [registers_bindMemory]
      rfl
    | byte address =>
      show (s.bindMemory keep access id).memory[address]? = _
      rw [memory_bindMemory_eq]
      exact ((getElem?_bindBytes_cases address _ 0).resolve_left fun hin => h hin.1).2 _ _

theorem cell?_congr {s s' : Symbolic} (hregisters : s'.registers = s.registers)
    (hmemory : s'.memory = s.memory) (place : Place) : s'.cell? place = s.cell? place := by
  cases place with
  | root key => exact congrArg (Option.map _) (congrArg (·[key]?) hregisters)
  | byte address => exact congrArg (·[address]?) hmemory

theorem Updates.cell? {id : Nat} {change : Expression → Expression} {s s' : Symbolic}
    (h : Updates id change s s') (place : Place) : s'.cell? place = s.cell? place :=
  cell?_congr h.registers h.memory place

theorem Fewer.cell? {s s' : Symbolic} {place : Place} (h : s.Fewer s') {cell : Cell}
    (hcell : s'.cell? place = some cell) : s.cell? place = some cell := by
  cases place with
  | byte address => exact h.memory address cell hcell
  | root key =>
    obtain ⟨id, hid, hcell⟩ := Option.map_eq_some_iff.1 hcell
    exact Option.map_eq_some_iff.2 ⟨id, h.registers key id hid, hcell⟩

theorem of_getElem?_erase {α β : Type} [Ord α] [Std.TransOrd α] {map : Std.ExtTreeMap α β}
    {key k : α} {value : β} (h : (map.erase key)[k]? = some value) : map[k]? = some value := by
  rw [Std.ExtTreeMap.getElem?_erase] at h
  split at h
  · cases h
  · exact h

variable (s : Symbolic)

theorem fewer_concretizeRegister (reg : Register) : s.Fewer (s.concretizeRegister reg) :=
  ⟨rfl, fun _ _ h => of_getElem?_erase h, fun _ _ h => h, fun _ h => h⟩

theorem fewer_concretizeByte (address : Address) : s.Fewer (s.concretizeByte address) :=
  ⟨rfl, fun _ _ h => h, fun _ _ h => of_getElem?_erase h, fun _ h => (List.mem_filter.1 h).1⟩

theorem of_getElem?_foldl {change : Std.ExtTreeMap Address Cell → Address →
      Std.ExtTreeMap Address Cell}
    (hchange : ∀ (map : Std.ExtTreeMap Address Cell) (a k : Address) (cell : Cell),
      (change map a)[k]? = some cell → map[k]? = some cell)
    (l : List Address) (map : Std.ExtTreeMap Address Cell) (k : Address) (cell : Cell)
    (h : (l.foldl change map)[k]? = some cell) : map[k]? = some cell := by
  induction l generalizing map with
  | nil => exact h
  | cons a l ih => exact hchange map a k cell (ih (change map a) h)

theorem fewer_concretizeAccess (access : Access) : s.Fewer (s.concretizeAccess access) :=
  ⟨rfl, fun _ _ h => h,
    of_getElem?_foldl (fun _ _ _ _ h => of_getElem?_erase h) access.byteAddresses s.memory,
    fun _ h => (List.mem_filter.1 h).1⟩

theorem fewer_concretizeRegisters : s.Fewer s.concretizeRegisters :=
  ⟨rfl, fun _ _ h => by simp [concretizeRegisters] at h, fun _ _ h => h, fun _ h => h⟩

theorem fewer_concretizeMemory : s.Fewer s.concretizeMemory :=
  ⟨rfl, fun _ _ h => h, fun _ _ h => by simp [concretizeMemory] at h,
    fun _ h => by simp [concretizeMemory] at h⟩

theorem fewer_concretizeAll : s.Fewer s.concretizeAll :=
  s.fewer_concretizeRegisters.trans s.concretizeRegisters.fewer_concretizeMemory

variable {s}

theorem fewer_unbind {id : Nat} {s' : Symbolic} (h : s.unbind id = .ok s') : s.Fewer s' := by
  have hrefl : s.Fewer s := ⟨rfl, fun _ _ h => h, fun _ _ h => h, fun _ h => h⟩
  unfold unbind at h
  cases hx : s.expression id with
  | error e => rw [hx] at h; cases h
  | ok x =>
    rw [hx] at h
    simp only [Except.bind, bind] at h
    split at h
    · next reg _ =>
      cases h
      split
      · exact ⟨rfl, fun _ _ h => of_getElem?_erase h, fun _ _ h => h, fun _ h => h⟩
      · exact hrefl
    · next access _ =>
      cases h
      have hbyte : ∀ (map : Std.ExtTreeMap Address Cell) (a k : Address) (cell : Cell),
          (unbindByte map id a)[k]? = some cell → map[k]? = some cell := by
        intro map a k cell hk
        unfold unbindByte at hk
        split at hk
        · exact of_getElem?_erase hk
        · exact hk
      have hmemory := of_getElem?_foldl hbyte access.byteAddresses s.memory
      split
      · exact ⟨rfl, fun _ _ h => h, hmemory, fun _ h => (List.mem_filter.1 h).1⟩
      · exact ⟨rfl, fun _ _ h => h, hmemory, fun _ h => h⟩
    · cases h
      exact hrefl

/-! What is freed. -/

/-- The place is bound to the expression, which was assigned to it. -/
def Binds (s : Symbolic) (x : Expression) (place : Place) : Prop :=
  (s.cell? place).map Cell.expression = some x.id ∧ x.origin.Covers place

/-- The places that are bound to the expressions in `dropped` are bound no more, and all
others are bound as before. -/
structure Frees (dropped : Expression → Prop) (s s' : Symbolic) : Prop extends s.Fewer s' where
  constraints : s'.constraints = s.constraints
  array : s'.array = s.array
  freed : ∀ place x, dropped x → s.Binds x place → s'.cell? place = none
  whole : s.Placed → ∀ w, w ∈ s'.aligned ↔ w ∈ s.aligned ∧ ∀ x, dropped x → x.id ≠ w.expression
  kept : ∀ place, (∀ x, dropped x → ¬ s.Binds x place) → s'.cell? place = s.cell? place

theorem Frees.none (s : Symbolic) : s.Frees (fun _ => False) s where
  expressions := rfl
  registers _ _ h := h
  memory _ _ h := h
  aligned _ h := h
  constraints := rfl
  array := rfl
  freed _ _ h := h.elim
  whole _ _ := ⟨fun hw => ⟨hw, fun _ h => h.elim⟩, And.left⟩
  kept _ _ := rfl

theorem Frees.trans {a b c : Symbolic} {dropped more : Expression → Prop}
    (h₁ : a.Frees dropped b) (h₂ : b.Frees more c) : a.Frees (fun x => dropped x ∨ more x) c := by
  -- a place that is free after the first part stays free
  have hstays : ∀ place, b.cell? place = .none → c.cell? place = .none := by
    intro place hfree
    rw [← hfree]
    refine h₂.kept place fun x _ hx => ?_
    rw [Binds, hfree] at hx
    cases hx.1
  refine {
    toFewer := h₁.toFewer.trans h₂.toFewer
    constraints := h₂.constraints.trans h₁.constraints
    array := h₂.array.trans h₁.array
    freed := ?_
    whole := ?_
    kept := ?_ }
  · intro place x hx hbinds
    by_cases hfirst : ∃ y, dropped y ∧ a.Binds y place
    · obtain ⟨y, hy, hby⟩ := hfirst
      exact hstays place (h₁.freed place y hy hby)
    · have hkept := h₁.kept place fun y hy hby => hfirst ⟨y, hy, hby⟩
      rcases hx with hx | hx
      · exact absurd ⟨x, hx, hbinds⟩ hfirst
      · refine h₂.freed place x hx ?_
        rw [Binds, hkept]
        exact hbinds
  · intro hplaced w
    rw [h₂.whole (hplaced.fewer h₁.toFewer), h₁.whole hplaced, and_assoc, ← forall_and]
    simp only [or_imp]
  · intro place hnone
    have hkept := h₁.kept place fun x hx => hnone x (.inl hx)
    rw [← hkept]
    refine h₂.kept place fun x hx hbinds => hnone x (.inr hx) ?_
    rw [Binds, hkept] at hbinds
    exact hbinds

/-- The bytes of an access are unbound where they are bound to an expression. -/
theorem getElem?_foldl_unbindByte (id : Nat) : ∀ (l : List Address)
    (map : Std.ExtTreeMap Address Cell) (address : Address),
    (l.foldl (fun map address => unbindByte map id address) map)[address]? =
      if address ∈ l ∧ map[address]?.map Cell.expression = some id then .none else map[address]?
  | [], map, address => by simp
  | first :: rest, map, address => by
    have hfirst : (unbindByte map id first)[address]? =
        if first = address ∧ map[address]?.map Cell.expression = some id then .none
        else map[address]? := by
      unfold unbindByte
      by_cases heq : first = address
      · subst heq
        by_cases hbound : map[first]?.map Cell.expression = some id
        · rw [if_pos hbound, if_pos ⟨rfl, hbound⟩, Std.ExtTreeMap.getElem?_erase_self]
        · rw [if_neg hbound, if_neg (not_and_of_not_right _ hbound)]
      · rw [if_neg (not_and_of_not_left _ heq)]
        split
        · have hcmp : compare first address ≠ .eq := mt Std.LawfulEqCmp.eq_of_compare heq
          rw [Std.ExtTreeMap.getElem?_erase, if_neg hcmp]
        · rfl
    rw [List.foldl_cons, getElem?_foldl_unbindByte id rest, hfirst]
    by_cases hbound : map[address]?.map Cell.expression = some id
    · by_cases heq : first = address
      · simp [heq, hbound]
      · simp [heq, Ne.symm heq]
    · simp [hbound]

/-- The unbinding of an expression forgets its whole write, and no other. -/
theorem mem_aligned_unbind {id : Nat} {s' : Symbolic} {x : Expression} (hrun : s.unbind id = .ok s')
    (hx : s.expressions[id]? = some x) (h : s.Placed) (w : AlignedWrite) :
    w ∈ s'.aligned ↔ w ∈ s.aligned ∧ id ≠ w.expression := by
  -- a whole write of the expression has the place of its origin
  have hplace : w ∈ s.aligned → id = w.expression → ∃ access, x.origin = .memory access ∧
      access.address = w.address ∧ access.bytes = w.bytes := by
    rintro hw rfl
    obtain ⟨y, access, hy, hkey⟩ := h.writes w hw
    rw [hx] at hy
    obtain rfl := Option.some.inj hy
    exact ⟨access, hkey⟩
  unfold unbind at hrun
  simp only [expression, hx, bind, Except.bind] at hrun
  cases horigin : x.origin with
  | volatile =>
    rw [horigin] at hrun hplace
    cases hrun
    refine ⟨fun hw => ⟨hw, fun heq => ?_⟩, And.left⟩
    obtain ⟨access, hmemory, -⟩ := hplace hw heq
    cases hmemory
  | register reg =>
    rw [horigin] at hrun hplace
    cases hrun
    have hsame : (if s.registers[reg.id]? = some id then
        { s with registers := s.registers.erase reg.id } else s).aligned = s.aligned := by
      split <;> rfl
    rw [hsame]
    refine ⟨fun hw => ⟨hw, fun heq => ?_⟩, And.left⟩
    obtain ⟨access, hmemory, -⟩ := hplace hw heq
    cases hmemory
  | memory access =>
    rw [horigin] at hrun hplace
    cases hrun
    split
    · next hfound =>
      replace hfound : s.aligned? access.address access.bytes = some id := hfound
      simp only [eraseAligned, List.mem_filter, Bool.not_eq_true', Bool.and_eq_false_imp,
        beq_iff_eq, beq_eq_false_iff_ne, ne_eq]
      refine and_congr_right fun hw => ⟨fun hother heq => ?_, fun hne haddress hbytes => ?_⟩
      · obtain ⟨_, hmemory, haddress, hbytes⟩ := hplace hw heq
        cases hmemory
        exact hother haddress.symm hbytes.symm
      · rw [← haddress, ← hbytes, h.aligned? hw] at hfound
        exact hne (Option.some.inj hfound).symm
    · next hother =>
      refine ⟨fun hw => ⟨hw, fun heq => hother ?_⟩, And.left⟩
      obtain ⟨_, hmemory, haddress, hbytes⟩ := hplace hw heq
      cases hmemory
      show s.aligned? access.address access.bytes = some id
      rw [haddress, hbytes, h.aligned? hw, heq]

/-- The unbinding of an expression frees what is bound to it. -/
theorem unbind_frees {id : Nat} {x : Expression} (hx : s.expressions[id]? = some x)
    (hid : x.id = id) : ∃ s', s.unbind id = .ok s' ∧ s.Frees (· = x) s' := by
  have hunbind : ∃ s', s.unbind id = .ok s' ∧
      (s'.constraints = s.constraints ∧ s'.array = s.array) ∧
      ∀ place, (s.Binds x place → s'.cell? place = .none) ∧
        (¬ s.Binds x place → s'.cell? place = s.cell? place) := by
    unfold unbind
    simp only [expression, hx, bind, Except.bind]
    cases horigin : x.origin with
    | volatile =>
      refine ⟨s, rfl, ⟨rfl, rfl⟩, fun place => ⟨fun h => ?_, fun _ => rfl⟩⟩
      rw [Binds, horigin] at h
      cases place <;> exact h.2.elim
    | register reg =>
      refine ⟨_, rfl, by split <;> exact ⟨rfl, rfl⟩, fun place => ?_⟩
      cases place with
      | byte address =>
        refine ⟨fun h => ?_, fun _ => by split <;> rfl⟩
        rw [Binds, horigin] at h
        exact h.2.elim
      | root key =>
        simp only [Binds, horigin, hid, cell?, Option.map_map]
        have hmap : Option.map (Cell.expression ∘ fun expression => { expression, byte := 0 })
            s.registers[key]? = s.registers[key]? := by cases s.registers[key]? <;> rfl
        rw [hmap]
        constructor
        · rintro ⟨hbound, rfl⟩
          rw [if_pos hbound, Std.ExtTreeMap.getElem?_erase_self]
          rfl
        · intro hother
          split
          · next hbound =>
            have hne : reg.id ≠ key := by
              rintro rfl
              exact hother ⟨hbound, rfl⟩
            have hcmp : compare reg.id key ≠ .eq := mt Std.LawfulEqCmp.eq_of_compare hne
            rw [Std.ExtTreeMap.getElem?_erase, if_neg hcmp]
          · rfl
    | memory access =>
      refine ⟨_, rfl, by split <;> exact ⟨rfl, rfl⟩, fun place => ?_⟩
      have hmemory : ∀ s' : Symbolic, (if s'.aligned? access.address access.bytes = some id then
          s'.eraseAligned access.address access.bytes else s').cell? place = s'.cell? place := by
        intro s'
        cases place <;> split <;> rfl
      rw [hmemory]
      cases place with
      | root key =>
        refine ⟨fun h => ?_, fun _ => rfl⟩
        rw [Binds, horigin] at h
        exact h.2.elim
      | byte address =>
        simp only [Binds, horigin, hid, cell?, getElem?_foldl_unbindByte]
        exact ⟨fun h => if_pos h.symm, fun h => if_neg fun h' => h h'.symm⟩
  obtain ⟨s', hrun, ⟨hconstraints, harray⟩, hplaces⟩ := hunbind
  refine ⟨s', hrun, fewer_unbind hrun, hconstraints, harray, ?_, fun hplaced w => ?_,
    fun place h => (hplaces place).2 (h x rfl)⟩
  · rintro place y rfl hbinds
    exact (hplaces place).1 hbinds
  · rw [mem_aligned_unbind hrun hx hplaced, forall_eq, hid]

end Symbolic

theorem Symbolic.Fewer.weakens {e : Engine} {symbolic : Symbolic}
    (h : e.symbolic.Fewer symbolic) : e.Weakens { e with symbolic } where
  __ := Engine.Weakens.refl e
  formulas id f hf := by
    unfold formula? at hf ⊢
    rw [h.expressions]
    exact hf
  registers := h.registers
  memory := h.memory
  aligned := h.aligned

end Concolic
