import Concolic.Proofs.MemoryArray

/-
  Constructions on formulas that obey the rules.

  Nothing keeps an array from being recorded as the value of a register or of memory,
  so whether a construction on what is bound succeeds may hang on whether words are.
  `Proper scope words f` says that a formula obeys the rules, and is a word of a width
  within range if `words`. Every constructor makes proper formulas of proper ones
  (`Call.makes`).
-/

namespace Concolic

open Call Word

open Formula (Formed WordWidth children)

variable {f : Formula} {width : Nat} {sure words : Prop} {later scope : Scope}

/-- The formula obeys the rules, and if `words` then it is a word. -/
structure Formula.Proper (scope : Scope) (words : Prop) (f : Formula) : Prop where
  formed : f.Formed scope
  word : words → f.isArray = false
  width_range : words → WordWidth f.width

theorem Formula.Proper.mono (h : f.Proper scope words) (hle : later.Extends scope) :
    f.Proper later words :=
  ⟨h.formed.mono hle, h.word, h.width_range⟩

theorem Formula.Proper.weaken {words' : Prop} (h : f.Proper scope words) (hw : words' → words) :
    f.Proper scope words' :=
  ⟨h.formed, fun hs => h.word (hw hs), fun hs => h.width_range (hw hs)⟩

/-- The formula is an array that obeys the rules, with an index of `width` bits. -/
structure Formula.IndexedBy (scope : Scope) (width : Nat) (f : Formula) : Prop where
  formed : f.Formed scope
  array : f.isArray = true
  width_eq : f.width = width

theorem Formula.IndexedBy.mono (h : f.IndexedBy scope width) (hle : later.Extends scope) :
    f.IndexedBy later width :=
  ⟨h.formed.mono hle, h.array, h.width_eq⟩

/-- What a lawful operator on words of widths within range has for a width. -/
theorem Call.Corresponds.width_range {c c' : Call}
    (h : Corresponds (fun f _ => WordWidth f.width) c c') (hl : c.plain.Lawful) :
    WordWidth c.plain.width := by
  cases h with
  | arith hf _ | unary hf => exact hf
  | compare => exact (by decide : 1 ≤ 1 ∧ 1 ≤ 128)
  | @extract high low f _ hf =>
    obtain ⟨hle, hlt, -⟩ := hl
    simp only [plain, WordWidth, Formula.width] at hf ⊢
    omega
  | concat hf _ =>
    obtain ⟨hlim, -⟩ := hl
    simp only [plain, WordWidth, Formula.width] at hf ⊢
    omega
  | zeroExtend hf | signExtend hf =>
    obtain ⟨hge, hlim, -⟩ := hl
    simp only [plain, WordWidth, Formula.width] at hf ⊢
    omega
  | ite _ hg _ => exact hg

theorem Build.Makes.constant {rules : Rules} (scope : Scope) (words : Prop) (value : Nat)
    (h : sure → WordWidth width) :
    Makes rules sure (constant value width) fun f =>
      f.Proper scope words ∧ f.width = width := by
  refine (word value width).mono h fun f hf => ?_
  obtain ⟨hw, rfl⟩ := hf
  have hformed := (Formed.hereditary scope).constant hw (truncate_lt width value)
  exact ⟨⟨hformed, fun _ => rfl, fun _ => hw⟩, rfl⟩

section

variable {scope : Scope} {words : Prop} (rules : Rules) {c : Call}
  (h : Call.Corresponds (fun f _ => f.Proper scope words) c c)

include h

/-- A constructor on proper formulas makes a proper formula, of the width of the plain
operator. On words that go together it does not fail. -/
theorem Call.makes (hs : sure → words ∧ c.plain.Lawful) :
    Build.Makes rules sure c.run fun f => f.Proper scope words ∧ f.width = c.plain.width := by
  have hc : ∀ f ∈ c.plain.children, f.Formed scope := (h.mono fun hf => hf.formed).children
  have hrange : words → c.plain.Lawful → WordWidth c.plain.width := fun hw =>
    (h.mono fun hf => hf.width_range hw).width_range
  refine (c.keptAs (Formed.hereditary scope) rules hc fun hsure =>
    ⟨(hs hsure).2, hrange (hs hsure).1 (hs hsure).2⟩).mono id fun f hf => ?_
  obtain ⟨hl, hkept⟩ := hf
  refine ⟨⟨hkept.kept, fun hw => ?_, fun hw => ?_⟩, hkept.width_eq⟩
  · exact hkept.word (h.mono fun hf => hf.word hw).isWord
  · exact hkept.width_eq ▸ hrange hw hl

theorem Call.proper : Build.Ensures rules c.run fun f =>
    f.Proper scope words ∧ f.width = c.plain.width := makes rules h False.elim

end

namespace Build

variable {scope : Scope} {words : Prop} {rules : Rules} {f g : Formula}

theorem arith_makes (op : ArithOp) (hf : f.Proper scope words) (hg : g.Proper scope words)
    (hwidth : words → f.width = g.width) :
    Makes rules words (arith op f g) fun r => r.Proper scope words ∧ r.width = f.width :=
  makes rules (.arith hf hg) fun hw => ⟨hw, hwidth hw, hf.word hw, hg.word hw⟩

theorem extract_makes (hf : f.Proper scope words) {high low : Nat}
    (h : words → low ≤ high ∧ high < f.width) :
    Makes rules words (extract high low f) fun r =>
      r.Proper scope words ∧ r.width = high - low + 1 :=
  makes rules (.extract hf) fun hw => ⟨hw, (h hw).1, (h hw).2, hf.word hw⟩

theorem zeroExtend_makes (hf : f.Proper scope words) (h : words → f.width ≤ width ∧ width ≤ limit) :
    Makes rules words (zeroExtend width f) fun r => r.Proper scope words ∧ r.width = width :=
  makes rules (.zeroExtend hf) fun hw => ⟨hw, (h hw).1, (h hw).2, hf.word hw⟩

theorem resize_makes (hf : f.Proper scope words) (h : WordWidth width) :
    Makes rules words (resize f width) fun r => r.Proper scope words ∧ r.width = width := by
  have hpos : width ≠ 0 := by
    have := h.1
    omega
  unfold resize truncate
  split
  · next hlt => exact zeroExtend_makes hf fun _ => ⟨hlt.le, h.2⟩
  · split
    · next hgt =>
      rw [topIndex, if_neg hpos]
      refine (extract_makes hf fun _ => ⟨by omega, by omega⟩).mono id fun r hr => ⟨hr.1, ?_⟩
      omega
    · exact .pure ⟨hf, by omega⟩

theorem concatMany_makes {fs : List Formula} (h : ∀ f ∈ fs, f.Proper scope words ∧ f.width = 8) :
    Makes rules (words ∧ 1 ≤ fs.length ∧ fs.length ≤ 16) (concatMany fs) fun r =>
      r.Proper scope words ∧ r.width = 8 * fs.length := by
  -- the word so far grows by one byte a step
  have hfold : ∀ (rest : List Formula) (first : Formula) (n : Nat),
      first.Proper scope words ∧ first.width = 8 * n →
      (∀ f ∈ rest, f.Proper scope words ∧ f.width = 8) →
      Makes rules (words ∧ n + rest.length ≤ 16) (rest.foldlM concat first) fun r =>
        r.Proper scope words ∧ r.width = 8 * (n + rest.length) := by
    intro rest
    induction rest with
    | nil =>
      intro first n hfirst _
      exact .pure hfirst
    | cons f rest ih =>
      intro first n hfirst hrest
      obtain ⟨hf, hrest⟩ := List.forall_mem_cons.1 hrest
      simp only [List.length_cons]
      refine (makes rules (.concat hfirst.1 hf.1) fun hs =>
        ⟨hs.1, ?_, hfirst.1.word hs.1, hf.1.word hs.1⟩).bind fun r hr => ?_
      · unfold limit
        omega
      have hwidth : r.width = 8 * (n + 1) := by
        rw [hr.2]
        simp only [plain, Formula.width]
        omega
      refine (ih r (n + 1) ⟨hr.1, hwidth⟩ hrest).mono (fun hs => ⟨hs.1, by omega⟩)
        fun r hr => ⟨hr.1, ?_⟩
      omega
  cases fs with
  | nil => exact .throw _ fun hs => by simp at hs
  | cons first rest =>
    obtain ⟨hfirst, hrest⟩ := List.forall_mem_cons.1 h
    refine (hfold rest first 1 hfirst hrest).mono (fun hs => ⟨hs.1, ?_⟩) fun r hr => ⟨hr.1, ?_⟩
    · simpa [add_comm] using hs.2.2
    · rw [hr.2, List.length_cons, add_comm]

/-! Memory as one array. -/

variable {array index value : Formula} {n : Nat} (harray : array.IndexedBy scope n)
  (hindex : index.Proper scope words)

include harray hindex

theorem select_makes (h : words → index.width = n) :
    Makes rules words (select array index) fun r => r.Proper scope words ∧ r.width = 8 := by
  have hc : ∀ f ∈ (Call.select array index).plain.children, f.Formed scope := by
    simpa using ⟨harray.formed, hindex.formed⟩
  have hword : WordWidth 8 := ⟨by decide, by decide⟩
  refine (keptAs (Formed.hereditary scope) rules hc fun hw => ⟨⟨harray.array, hindex.word hw,
    (h hw).trans harray.width_eq.symm⟩, hword⟩).mono id fun f hf => ?_
  obtain ⟨-, hkept⟩ := hf
  exact ⟨⟨hkept.kept, fun _ => hkept.word trivial, fun _ => hkept.width_eq ▸ hword⟩, hkept.width_eq⟩

theorem store_makes (hvalue : value.Proper scope words)
    (h : words → index.width = n ∧ value.width = 8) :
    Makes rules words (store array index value) (Formula.IndexedBy scope n) := by
  have hc : ∀ f ∈ (Call.store array index value).plain.children, f.Formed scope := by
    simpa using ⟨harray.formed, hindex.formed, hvalue.formed⟩
  have hwidth : words → index.width = array.width := fun hw =>
    (h hw).1.trans harray.width_eq.symm
  refine (keptAs (Formed.hereditary scope) rules hc fun hw => ⟨⟨harray.array, hindex.word hw,
    hwidth hw, (h hw).2, hvalue.word hw⟩, ?_⟩).mono id fun f hf => ?_
  · show WordWidth array.width
    rw [← hwidth hw]
    exact hindex.width_range hw
  · obtain ⟨-, hkept⟩ := hf
    exact ⟨hkept.kept, hkept.array rfl ▸ rfl, hkept.width_eq.trans harray.width_eq⟩

omit harray in
theorem arrayPlace_makes (offset : Nat) :
    Makes rules words (Engine.arrayPlace index offset) fun r =>
      r.Proper scope words ∧ r.width = index.width := by
  refine (Makes.constant scope words offset hindex.width_range).bind fun k hk => ?_
  exact arith_makes .add hindex hk.1 fun _ => hk.2.symm

theorem storeBytes_makes (hvalue : value.Proper scope words) (h : words → index.width = n) :
    Makes rules words (storeBytes index value (value.width / 8) array)
      (Formula.IndexedBy scope n) := by
  refine Makes.foldlM _ (fun i hi array harray => ?_) harray
  have hlt : i < value.width / 8 := List.mem_range.1 hi
  refine (arrayPlace_makes hindex i).bind fun place hplace => ?_
  refine (extract_makes hvalue fun _ => ⟨by omega, by omega⟩).bind fun byte hbyte => ?_
  refine store_makes harray hplace.1 hbyte.1 fun hw => ⟨hplace.2.trans (h hw), ?_⟩
  omega

theorem loadBytes_makes (h : words → index.width = n) (count : Nat) :
    Makes rules (words ∧ 1 ≤ count ∧ count ≤ 16) (loadBytes index count array) fun r =>
      r.Proper scope words ∧ r.width = 8 * count := by
  have hbytes : Makes rules words ((List.range count).reverse.mapM (byteAt index array))
      fun fs => fs.length = (List.range count).reverse.length ∧
        ∀ f ∈ fs, f.Proper scope words ∧ f.width = 8 := by
    refine Makes.mapM _ fun i _ => ?_
    refine (arrayPlace_makes hindex i).bind fun place hplace => ?_
    exact select_makes harray hplace.1 fun hw => hplace.2.trans (h hw)
  refine (hbytes.mono And.left fun _ => id).bind fun fs hfs => ?_
  have hlength : fs.length = count := by simpa using hfs.1
  rw [← hlength]
  exact concatMany_makes hfs.2

end Build

end Concolic
