import Concolic.Formula.Graph
import Concolic.Proofs.Variables

/-
  The variables of a formula.

  The search for the variables passes over parts without variables and over parts
  that it has seen. Before it comes to what is below a formula on its stack, it
  finds what a recursion over the whole tree of that formula finds
  (`occurrences`), each variable at its first occurrence (`search_finds`), since
  the variables of a part that was seen are found already, unless the search is
  still inside that part. The value of a formula rests on these variables and on
  the memory (`eval_congr`).
-/

namespace Concolic

open Context

namespace Formula

variable {f g : Formula} {found : List Nat} {scope : Scope} {s : Search}

theorem size_operand (hg : g ∈ f.children) : g.size < f.size := by
  cases f <;> simp at hg <;> simp only [size] <;> grind

/-- Adds a variable at its first occurrence. -/
def note (found : List Nat) (id : Nat) : List Nat := if id ∈ found then found else found ++ [id]

theorem foldl_note_of_subset {l : List Nat} (h : ∀ id ∈ l, id ∈ found) :
    l.foldl note found = found := by
  induction l with
  | nil => rfl
  | cons id l ih =>
    rw [List.foldl_cons, note, if_pos (h id (by simp))]
    exact ih fun k hk => h k (by simp [hk])

theorem mem_foldl_note {l : List Nat} {id : Nat} :
    id ∈ l.foldl note found ↔ id ∈ found ∨ id ∈ l := by
  induction l generalizing found with
  | nil => simp
  | cons k l ih =>
    rw [List.foldl_cons, ih, note]
    split <;> grind

theorem foldl_note (l : List Nat) :
    l.foldl note found = found ++ (l.removeAll found).eraseDups := by
  induction l generalizing found with
  | nil => simp [List.removeAll]
  | cons id l ih =>
    rw [List.foldl_cons, ih, note]
    split
    · next h => simp [List.removeAll, h]
    · next h =>
      simp only [List.removeAll, List.filter_cons, List.elem_eq_mem, h, decide_false, Bool.not_false,
        if_true, List.eraseDups_cons, List.append_assoc, List.singleton_append, List.filter_filter]
      grind

/-! The search. -/

namespace Search

/-- The formula has been met. -/
def Met (s : Search) (f : Formula) : Prop := s.seen.find? f ≠ none

/-- All variables of the formula are found. -/
def Knows (s : Search) (f : Formula) : Prop := ∀ id ∈ f.occurrences, id ∈ s.found.toList

/-- The variables found are those of the scope that were met, and all variables are found
of what was met and is not larger than `size`: it is not being searched any more. -/
structure Sound (scope : Scope) (size : Nat) (s : Search) : Prop where
  listed : ∀ id ∈ s.found.toList, ∃ width, scope id = some width ∧ s.Met (.var id width)
  known : ∀ g, s.Met g → g.size ≤ size → s.Knows g

theorem met_meet : (s.meet f).Met g ↔ g = f ∨ s.Met g := by
  simp only [Met, meet, Memo.find?_insert]
  split <;> simp_all

end Search

/-- The second search has come to the variables `l` after the first, and has left whatever
it has met since. -/
structure Finds (scope : Scope) (l : List Nat) (s s' : Search) : Prop where
  found : s'.found.toList = l.foldl note s.found.toList
  listed : ∀ id ∈ s'.found.toList, ∃ width, scope id = some width ∧ s'.Met (.var id width)
  met : ∀ g, s'.Met g → s.Met g ∨ s'.Knows g

namespace Finds

variable {l l' : List Nat} {s' s'' : Search} {size : Nat}

theorem knows (h : Finds scope l s s') (hg : s.Knows g) : s'.Knows g := by
  intro id hid
  rw [h.found]
  exact mem_foldl_note.2 (.inl (hg id hid))

theorem sound (h : Finds scope l s s') (hs : s.Sound scope size) : s'.Sound scope size where
  listed := h.listed
  known g hg hle := (h.met g hg).elim (fun hold => h.knows (hs.known g hold hle)) id

theorem trans (h : Finds scope l s s') (h' : Finds scope l' s' s'') :
    Finds scope (l ++ l') s s'' where
  found := by rw [h'.found, h.found, List.foldl_append]
  listed := h'.listed
  met g hg := (h'.met g hg).elim (fun hold => (h.met g hold).imp_right h'.knows) .inr

theorem append {fs : List Formula}
    (h : ∀ g ∈ fs, ∀ s, s.Sound scope size → ∃ s', Finds scope g.occurrences s s' ∧
      ∀ rest, search (g :: rest) s = search rest s')
    (hs : s.Sound scope size) :
    ∃ s', Finds scope (fs.flatMap occurrences) s s' ∧
      ∀ rest, search (fs ++ rest) s = search rest s' := by
  induction fs generalizing s with
  | nil => exact ⟨s, ⟨rfl, hs.listed, fun g => .inl⟩, fun _ => rfl⟩
  | cons f fs ih =>
    obtain ⟨mid, hfirst, hmid⟩ := h f (by simp) s hs
    obtain ⟨last, hrest, hlast⟩ := ih (fun g hg => h g (by simp [hg])) (hfirst.sound hs)
    exact ⟨last, hfirst.trans hrest, fun rest => (hmid _).trans (hlast rest)⟩

end Finds

/-- A variable that is met for the first time is found for the first time. -/
theorem Search.Sound.meet {size : Nat} (hs : s.Sound scope size) (hle : f.size ≤ size)
    (hf : f.Formed scope) (hnew : ¬ s.Met f) :
    (s.meet f).found.toList = f.var?.toList.foldl note s.found.toList ∧
      (s.meet f).Sound scope (f.size - 1) := by
  have hfound : (s.meet f).found.toList = f.var?.toList.foldl note s.found.toList := by
    cases f with
    | var id width =>
      have hfresh : id ∉ s.found.toList := fun hid => by
        obtain ⟨other, hother, hmet⟩ := hs.listed id hid
        obtain rfl : width = other := Option.some.inj (hf.range.2.symm.trans hother)
        exact hnew hmet
      simpa [Search.meet, var?, note] using hfresh
    | _ => simp [Search.meet, var?]
  refine ⟨hfound, fun id hid => ?_, fun g hg hsize id hid => ?_⟩
  · rw [hfound] at hid
    rcases mem_foldl_note.1 hid with hid | hid
    · obtain ⟨width, hwidth, hmet⟩ := hs.listed id hid
      exact ⟨width, hwidth, met_meet.2 (.inr hmet)⟩
    · cases f with
      | var k width =>
        obtain rfl : id = k := by simpa [var?] using hid
        exact ⟨width, hf.range.2, met_meet.2 (.inl rfl)⟩
      | _ => simp [var?] at hid
  · rcases met_meet.1 hg with rfl | hold
    · have := g.sizes_children
      omega
    · rw [hfound]
      exact mem_foldl_note.2 (.inl (hs.known g hold (by omega) id hid))

/-- The search of the formula on top of the stack finds the variables of its tree, and
goes on with what is below. -/
theorem search_finds (hf : f.Formed scope) {size : Nat} (hle : f.size ≤ size)
    (hs : s.Sound scope size) : ∃ s', Finds scope f.occurrences s s' ∧
      ∀ rest, search (f :: rest) s = search rest s' := by
  induction f using operandInduction generalizing s size with
  | step f ih =>
    simp only [search]
    split
    · next hnew =>
      simp only [Bool.and_eq_true, Option.isNone_iff_eq_none] at hnew
      obtain ⟨hmeet, hstart⟩ := hs.meet hle hf (not_not.2 hnew.2)
      obtain ⟨last, hfinds, hlast⟩ := Finds.append (fun g hg _ => ih g hg (hf.operand hg)
        (Nat.le_sub_one_of_lt (size_operand hg))) hstart
      have hfound := hfinds.found
      rw [hmeet, ← List.foldl_append, ← occurrences_eq] at hfound
      refine ⟨last, ⟨hfound, hfinds.listed, fun g hg => ?_⟩, hlast⟩
      rcases hfinds.met g hg with hold | hknown
      · refine (Search.met_meet.1 hold).symm.imp_right ?_
        rintro rfl id hid
        rw [hfound]
        exact mem_foldl_note.2 (.inr hid)
      · exact .inr hknown
    · next hold =>
      have hknown : s.Knows f := by
        intro id hid
        have hsym := (symbolic_iff f).2 (List.ne_nil_of_mem hid)
        simp only [hsym, Bool.true_and, Option.isNone_iff_eq_none] at hold
        exact hs.known f hold hle id hid
      exact ⟨s, ⟨(foldl_note_of_subset hknown).symm, hs.listed, fun g => .inl⟩, fun _ => rfl⟩

theorem varIds_eq (hf : f.Formed scope) : f.varIds.toList = f.occurrences.eraseDups := by
  have hstart : Search.Sound scope f.size {} := by
    refine ⟨fun id hid => by simp at hid, fun g hg => ?_⟩
    simp [Search.Met] at hg
  obtain ⟨last, hfinds, hlast⟩ := search_finds hf le_rfl hstart
  have hfound := hfinds.found
  rw [foldl_note] at hfound
  simpa [varIds, hlast, search, List.removeAll, List.filter_true] using hfound

end Formula

/-- **The variables of a formula.** Of every formula that a context gave out, the variables
are those of its tree in the order from left to right, each at its first occurrence. There
are none exactly if the formula is not marked as symbolic. Its value is the same for any two
choices of values that agree on these variables, over the same memory; so a formula that is
not marked has a value of its own, whatever the variables are. -/
theorem variables_are_occurrences {ctx : Context} {given : List Formula} (h : ctx.InUse given)
    {f : Formula} (hf : f ∈ given) :
    f.varIds.toList = f.occurrences.eraseDups ∧
    (f.varIds = #[] ↔ f.symbolic = false) ∧
    (∀ v v' : Valuation, v.byte = v'.byte → (∀ id ∈ f.varIds, v.var id = v'.var id) →
      f.value v = f.value v') ∧
    (f.symbolic = false → ∀ v v' : Valuation, v.byte = v'.byte → f.value v = f.value v') := by
  have hids := Formula.varIds_eq (h.formed.2 f hf)
  have hmem : ∀ id, id ∈ f.varIds ↔ id ∈ f.occurrences := by
    intro id
    rw [← Array.mem_toList_iff, hids, List.mem_eraseDups]
  have hvalue : ∀ v v' : Valuation, v.byte = v'.byte → (∀ id ∈ f.varIds, v.var id = v'.var id) →
      f.value v = f.value v' := by
    intro v v' hbyte hv
    rw [Formula.value_eq_eval, Formula.value_eq_eval]
    exact (Formula.eval_congr (fun id hid => hv id ((hmem id).2 hid)) (.inr hbyte)).1
  have hempty : f.varIds = #[] ↔ f.symbolic = false := by
    rw [← Bool.not_eq_true, f.symbolic_iff, not_not]
    simp only [Array.eq_empty_iff_forall_not_mem, hmem, List.eq_nil_iff_forall_not_mem]
  refine ⟨hids, hempty, hvalue, fun hsym v v' hbyte => hvalue v v' hbyte ?_⟩
  simp [hempty.2 hsym]

theorem variables_are_occurrences_repeated : ∃ (ctx : Context) (given : List Formula) (f : Formula),
    ctx.InUse given ∧ f ∈ given ∧ f.varIds.toList = [1, 0] ∧ f.symbolic = true ∧
    ∀ v v' : Valuation, v.byte = v'.byte → v.var 1 = v'.var 1 → v.var 0 = v'.var 0 →
      f.value v = f.value v' := by
  have one := InUse.start.request (.newVariable 8 none 7) ⟨false, false⟩ trivial
    (f := .var 0 8) (by decide +kernel)
  have two := one.request (.newVariable 8 none 5) ⟨false, false⟩ trivial
    (f := .var 1 8) (by decide +kernel)
  have three := two.request (.call (.concat (.var 0 8) (.var 1 8))) ⟨true, true⟩
    (f := .concat (.var 0 8) (.var 1 8)) (by simp [Request.About]) (by decide +kernel)
  have four := three.request (.call (.concat (.var 1 8) (.concat (.var 0 8) (.var 1 8))))
    ⟨true, true⟩ (f := .concat (.var 1 8) (.concat (.var 0 8) (.var 1 8)))
    (by simp [Request.About]) (by decide +kernel)
  obtain ⟨hids, -, hvalue, -⟩ := variables_are_occurrences four List.mem_cons_self
  have hids' := hids.trans (show _ = [1, 0] by decide)
  refine ⟨_, _, _, four, List.mem_cons_self, hids', rfl, fun v v' hbyte hone hzero => ?_⟩
  refine hvalue v v' hbyte fun id hid => ?_
  rw [← Array.mem_toList_iff, hids'] at hid
  rcases List.mem_pair.1 hid with rfl | rfl
  · exact hone
  · exact hzero

end Concolic
