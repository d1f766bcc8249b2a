import Concolic.Proofs.ByteMap

/-
  Adjacent bytes of a formula.

  The identities look for the bits of a slice inside slices, concatenations and
  extensions, and folding inside constants; any other word is solid. Bytes that
  are cut from a solid word and put together in their order are the slice of the
  word that they cover (`concatMany_bytes`), and the word itself where they are
  all of it. Memory that is bound to a solid word is therefore read as a slice of
  that word.
-/

namespace Concolic

open Access (distance)
open Build Symbolic

namespace Formula

/-- A word whose slices no rule looks into. -/
def Solid : Formula → Bool
  | .constant .. | .extract .. | .concat .. | .zeroExtend .. | .signExtend .. => false
  | f => !f.isArray

/-- The bytes of a formula from number `i` to before number `j`. -/
def bytes (x : Formula) (i j : Nat) : Formula :=
  if i = 0 ∧ 8 * j = x.width then x else .extract (8 * j - 1) (8 * i) x

variable {x : Formula} {i j m : Nat}

theorem Solid.isArray (hx : x.Solid = true) : x.isArray = false := by
  cases x <;> simp_all [Solid]

theorem bytes_of_pos (h : 0 < i) : x.bytes i j = .extract (8 * j - 1) (8 * i) x :=
  if_neg fun hall => by omega

theorem bytes_of_lt (h : 8 * j < x.width) : x.bytes i j = .extract (8 * j - 1) (8 * i) x :=
  if_neg fun hall => by omega

theorem answers_map {rules : Rules} {ι : Type} {f : ι → Build Formula} {g : ι → Formula}
    {l : List ι} (h : ∀ i ∈ l, Answers rules (f i) (.ok (g i))) :
    Answers rules (l.mapM f) (.ok (l.map g)) := by
  obtain ⟨as, has, hall⟩ := answers_mapM rules l fun i hi => ⟨g i, h i hi, Eq.refl (g i)⟩
  rw [← List.forall₂_map_left_iff (R := Eq), List.forall₂_eq_eq_eq] at hall
  rwa [hall]

section

variable {rules : Rules} (hrules : rules.identities = true) (hx : x.Solid = true)

include hrules hx

theorem extract_bytes (hij : i < j) (hj : 8 * j ≤ x.width) :
    Answers rules (Build.extract (8 * j - 1) (8 * i) x) (.ok (x.bytes i j)) := by
  have hcheck : ¬ (8 * j - 1 < 8 * i ∨ 8 * j - 1 ≥ x.width ∨ x.isArray = true) := by
    simp only [Solid.isArray hx, Bool.false_eq_true, or_false]
    omega
  have hconstant : x.constant? = none := by cases x <;> simp_all [Solid, constant?]
  have hreduced : ∀ {folded : Nat → Build Formula} {reduced asIs : Build Formula}
      {r : Except Error Formula}, Answers rules reduced r →
      Answers rules (fromOperand x folded reduced asIs) r := by
    intro folded reduced asIs r h
    refine Answers.bind (a := rules) (fun ctx => ⟨ctx.pool, rfl⟩) ?_
    rw [hconstant, hrules]
    cases rules.folding <;> exact h
  have hwhole : (8 * i = 0 ∧ 8 * j - 1 + 1 = x.width) ↔ (i = 0 ∧ 8 * j = x.width) := by omega
  unfold Build.extract
  rw [if_neg hcheck]
  refine hreduced ?_
  simp only [hwhole, bytes]
  split
  · exact .pure x
  · cases x <;> simp only [Solid, Bool.false_eq_true] at hx <;> exact .intern _

variable (hlimit : x.width ≤ Word.limit)

include hlimit

/-- A slice above the adjacent one. -/
theorem concat_bytes (him : i < m) (hmj : m < j) (hj : 8 * j ≤ x.width) :
    Answers rules (Build.concat (x.bytes m j) (x.bytes i m)) (.ok (x.bytes i j)) := by
  have hjoined := extract_bytes hrules hx (him.trans hmj) hj
  have hadjacent : 8 * m = 8 * m - 1 + 1 := by omega
  rw [bytes_of_pos (by omega), bytes_of_lt (i := i) (by omega)]
  have hmerge : Answers rules (if x = x ∧ 8 * m = 8 * m - 1 + 1 then
      Build.extract (8 * j - 1) (8 * i) x
      else Build.intern (.concat (.extract (8 * j - 1) (8 * m) x) (.extract (8 * m - 1) (8 * i) x)))
      (.ok (x.bytes i j)) := by
    rwa [if_pos ⟨rfl, hadjacent⟩]
  unfold Build.concat
  rw [if_neg (by simp only [width, Formula.isArray, Bool.false_eq_true, or_false]; omega)]
  obtain ⟨folding, identities⟩ := rules
  obtain rfl : identities = true := hrules
  cases folding <;> exact hmerge

/-- The bytes below a slice are joined to it one by one, from the top. -/
theorem foldlM_bytes (him : i ≤ m) (hmj : m < j) (hj : 8 * j ≤ x.width) :
    Answers rules (((List.range' i (m - i)).reverse.map fun k => x.bytes k (k + 1)).foldlM
      Build.concat (x.bytes m j)) (.ok (x.bytes i j)) := by
  induction m, him using Nat.le_induction with
  | base => simpa using Answers.pure _
  | succ m him ih =>
    rw [show m + 1 - i = m - i + 1 by omega, List.range'_1_concat, List.reverse_append,
      show i + (m - i) = m by omega]
    exact (concat_bytes hrules hx hlimit m.lt_succ_self hmj hj).bind (ih (by omega))

theorem concatMany_bytes (hij : i < j) (hj : 8 * j ≤ x.width) :
    Answers rules (concatMany ((List.range' i (j - i)).reverse.map fun k => x.bytes k (k + 1)))
      (.ok (x.bytes i j)) := by
  obtain ⟨m, rfl⟩ := Nat.exists_eq_add_of_lt hij
  rw [show i + m + 1 - i = m + 1 by omega, List.range'_1_concat, List.reverse_append]
  have hfold := foldlM_bytes hrules hx hlimit (Nat.le_add_right i m) (Nat.lt_succ_self _) hj
  rwa [Nat.add_sub_cancel_left] at hfold

/-- Memory whose bytes are bound to adjacent bytes of the word. -/
theorem memoryFormula_bytes (hij : i < j) (hj : 8 * j ≤ x.width) {s : Symbolic}
    (machine : Machine) {access : Access} {id : Nat} (hid : s.formula? id = some x)
    (hcount : access.bytes = j - i) (hcells : ∀ k < access.bytes,
      s.memory[access.address + k.toUInt64]? = some { expression := id, byte := i + k }) :
    Answers rules (s.memoryFormula false machine access) (.ok (x.bytes i j)) := by
  obtain ⟨e, he, hformula⟩ := expression_of_formula? hid
  have hbyte : ∀ k ∈ (List.range access.bytes).reverse,
      Answers rules (s.byteFormula machine (access.address + k.toUInt64))
        (.ok (x.bytes (i + k) (i + k + 1))) := by
    intro k hk
    have hlt : k < access.bytes := by simpa using hk
    have hpart := extract_bytes hrules hx (i + k).lt_succ_self (by omega)
    rw [show 8 * (i + k + 1) - 1 = (i + k) * 8 + 7 by omega, mul_comm 8] at hpart
    simp only [byteFormula, hcells k hlt, expression, he]
    exact (Answers.pure e).bind (hformula ▸ hpart)
  have hparts := answers_map hbyte
  have hjoined := concatMany_bytes hrules hx hlimit hij hj
  rw [List.range'_eq_map_range, ← List.map_reverse, List.map_map, ← hcount] at hjoined
  unfold memoryFormula
  rw [if_neg (by omega), Access.byteAddresses, Access.addressesFrom, ← List.map_reverse]
  refine Answers.bind ?_ hjoined
  rw [List.mapM_map]
  exact hparts

end

end Formula

/-- A write of a word to memory binds its bytes in their order. -/
theorem create_binds {s s' : Symbolic} {keep : Bool} {x : Formula} {whole : Access}
    {comment : String} {address : Option Address} {id : Nat} (hlimit : x.width ≤ Word.limit)
    (h : s.create keep x (.memory whole) comment address = .ok (id, s')) :
    x.width = whole.bits ∧ s'.formula? id = some x ∧ ∀ k < whole.bytes,
      s'.memory[whole.address + k.toUInt64]? = some { expression := id, byte := k } := by
  rw [create_eq] at h
  cases hcheck : checkOrigin x (.memory whole) with
  | error => rw [hcheck] at h; cases h
  | ok =>
    rw [hcheck] at h
    cases h
    have hbytes := bytes_le_of_checkOrigin hlimit hcheck
    refine ⟨(checkOrigin_memory hcheck).1, ?_, fun k hk => ?_⟩
    · exact (formula?_bindMemory _ _ _ _ _).trans (formula?_enter _ _)
    · refine (memory_bindMemory _ _ _ hbytes _).trans ?_
      rw [Access.distance_add _ (by omega), if_pos hk]

/-- **Adjacent bytes.** Under the identities, with folding or without, the bytes of a word of up
to sixteen bytes that is no constant, slice, concatenation or extension, cut out one by one and
put together from byte `j - 1` down to byte `i`, are the very formula that cutting out all these
bits makes, and the word itself if they are all of it. So memory where these bytes of the word
are bound is read as that formula, as is every part of what a write of the word has bound. -/
theorem adjacent_bytes_reassemble {rules : Rules} (hrules : rules.identities = true) {x : Formula}
    (hx : x.Solid = true) {n i j : Nat} (hn : n ≤ 16) (hwidth : x.width = 8 * n) (hij : i < j)
    (hjn : j ≤ n) :
    ∃ p : Formula, Answers rules (Build.extract (8 * j - 1) (8 * i) x) (.ok p) ∧
      Answers rules (do
        let parts ← (List.range' i (j - i)).reverse.mapM fun k =>
          Build.extract (8 * k + 7) (8 * k) x
        concatMany parts) (.ok p) ∧
      (i = 0 → j = n → p = x) ∧
      (∀ (s : Symbolic) (machine : Machine) (access : Access) (id : Nat),
        s.formula? id = some x → access.bytes = j - i →
        (∀ k < access.bytes,
          s.memory[access.address + k.toUInt64]? = some { expression := id, byte := i + k }) →
        Answers rules (s.memoryFormula false machine access) (.ok p)) ∧
      ∀ (s s' : Symbolic) (keep : Bool) (whole : Access) (comment : String)
        (address : Option Address) (id : Nat),
        s.create keep x (.memory whole) comment address = .ok (id, s') →
        ∀ (machine : Machine) (access : Access), access.address = whole.address + i.toUInt64 →
          access.bytes = j - i → Answers rules (s'.memoryFormula false machine access) (.ok p) := by
  have hlimit : x.width ≤ Word.limit := by unfold Word.limit; omega
  have hj : 8 * j ≤ x.width := by omega
  have hparts : Answers rules ((List.range' i (j - i)).reverse.mapM fun k =>
      Build.extract (8 * k + 7) (8 * k) x)
      (.ok ((List.range' i (j - i)).reverse.map fun k => x.bytes k (k + 1))) := by
    refine Formula.answers_map fun k hk => ?_
    have hlt := List.mem_range'_1.1 (List.mem_reverse.1 hk)
    exact Formula.extract_bytes hrules hx k.lt_succ_self (by omega)
  refine ⟨x.bytes i j, Formula.extract_bytes hrules hx hij hj,
    hparts.bind (Formula.concatMany_bytes hrules hx hlimit hij hj), ?_,
    fun _ machine _ _ => Formula.memoryFormula_bytes hrules hx hlimit hij hj machine, ?_⟩
  · rintro rfl rfl
    exact if_pos ⟨rfl, hwidth.symm⟩
  · intro s s' keep whole comment address id hcreate machine access haddress hcount
    obtain ⟨hbits, hid, hcells⟩ := create_binds hlimit hcreate
    refine Formula.memoryFormula_bytes hrules hx hlimit hij hj machine hid hcount fun k hk => ?_
    have hplace : access.address + k.toUInt64 = whole.address + (i + k).toUInt64 := by
      rw [haddress]
      apply UInt64.toNat.inj
      simp [Nat.toUInt64]
      omega
    rw [hplace]
    exact hcells (i + k) (by unfold Access.bytes; omega)

theorem adjacent_bytes_reassemble_middle : ∃ (id : Nat) (s : Symbolic),
    Symbolic.create {} true (.var 0 32) (.memory (.fixed 0xfffffffffffffffe 32)) "" none =
      .ok (id, s) ∧
    Answers ⟨false, true⟩ (s.memoryFormula false {} (.fixed 0xffffffffffffffff 16))
      (.ok (.extract 23 8 (.var 0 32))) := by
  obtain ⟨p, hextract, -, -, -, hmemory⟩ := adjacent_bytes_reassemble
    (show (⟨false, true⟩ : Rules).identities = true from rfl) (x := .var 0 32) rfl
    (n := 4) (i := 1) (j := 3) (by decide) rfl (by decide) (by decide)
  obtain rfl : p = .extract 23 8 (.var 0 32) :=
    Except.ok.inj (hextract.unique (Formula.extract_bytes rfl rfl (by decide) (by decide)))
  refine ⟨_, _, rfl, hmemory {} _ true (.fixed 0xfffffffffffffffe 32) "" none _ rfl _ _ ?_ ?_⟩ <;>
    decide

end Concolic
