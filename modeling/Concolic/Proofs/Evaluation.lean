import Concolic.Formula.Eval

/-
  The walk that values a formula computes its meaning.

  While the walk is under way (`Walk.Sound`), every entry of its table is the
  meaning of its formula and stands there together with the entries of all
  operands, and every operand of a formula that was put back on the stack has a
  value or waits above it. So when a formula comes to be valued, all that is
  looked up for it is in the table (`Walk.Sound.supplied`), down the whole chain
  of stores where it is a select. Every step keeps this (`Walk.Sound.step`) and
  leaves less to do, so that the walk ends with the meaning of the formula that
  it started from (`evaluation_is_meaning`).
-/

namespace Concolic.Formula

variable {g array f : Formula} {known : Formula → Prop} {rest : List (Formula × Bool)}

-- the operands of each operator
attribute [simp] children.eq_1 children.eq_2 children.eq_3 children.eq_4 children.eq_5
  children.eq_6 children.eq_7 children.eq_8 children.eq_9 children.eq_10 children.eq_11
  children.eq_12 children.eq_13

/-! One operator. -/

section

variable {v : Valuation} {look : Formula → Option Nat}

theorem readStored_id {address value : Nat} (h : readStored v look array address = some value) :
    readStored (m := Id) v (fun g => (look g).getD 0) array address = value := by
  induction array with
  | store array index stored hx _ _ =>
    simp only [readStored] at h ⊢
    obtain ⟨place, hplace, h⟩ := Option.bind_eq_some_iff.1 h
    rw [hplace]
    show (if place = address then (look stored).getD 0 else _) = value
    split at h
    · next heq => rw [if_pos heq, h, Option.getD_some]
    · next hne => rw [if_neg hne]; exact hx h
  | _ => exact Option.some.inj h

/-- Where every look-up finds a value, the default for those that find none is
not used. -/
theorem evalTop_id {value : Nat} (h : evalTop v look f = some value) :
    evalTop (m := Id) v (fun g => (look g).getD 0) f = value := by
  cases f with
  | constant | var | memory | store => exact Option.some.inj h
  | zeroExtend => simp only [evalTop] at h ⊢; rw [h, Option.getD_some]
  | arith | compare | concat =>
    simp only [evalTop] at h ⊢
    obtain ⟨a, ha, h⟩ := Option.bind_eq_some_iff.1 h
    obtain ⟨b, hb, h⟩ := Option.bind_eq_some_iff.1 h
    rw [ha, hb]
    exact Option.some.inj h
  | unary | extract | signExtend =>
    simp only [evalTop] at h ⊢
    obtain ⟨a, ha, h⟩ := Option.bind_eq_some_iff.1 h
    rw [ha]
    exact Option.some.inj h
  | ite cond onTrue onFalse =>
    simp only [evalTop] at h ⊢
    obtain ⟨c, hc, h⟩ := Option.bind_eq_some_iff.1 h
    rw [hc]
    show (if c = 0 then (look onFalse).getD 0 else (look onTrue).getD 0) = value
    split at h
    · next heq => rw [if_pos heq, h, Option.getD_some]
    · next hne => rw [if_neg hne, h, Option.getD_some]
  | select array index =>
    simp only [evalTop] at h ⊢
    obtain ⟨address, haddress, h⟩ := Option.bind_eq_some_iff.1 h
    rw [haddress]
    exact readStored_id h

variable (hknown : ∀ g, known g → look g = some (g.eval v))
  (hclosed : ∀ g, known g → ∀ h ∈ g.children, known h)

include hknown hclosed

/-- Looking the meanings of the parts up along a chain of stores gives the
meaning of the byte. -/
theorem readStored_eq (h : known array) (address : Nat) :
    readStored v look array address = some (readArray v array address) := by
  induction array with
  | store array index stored hx _ _ =>
    have hindex := hknown index (hclosed _ h _ (by simp))
    have hstored := hknown stored (hclosed _ h _ (by simp))
    simp only [readStored, readArray, hindex, Option.bind_eq_bind, Option.bind_some]
    split
    · exact hstored
    · exact hx (hclosed _ h _ (by simp))
  | _ => rfl

/-- Looking the meanings of the parts up gives the meaning of the formula. -/
theorem evalTop_eq (h : ∀ g ∈ f.children, known g) : evalTop v look f = some (f.eval v) := by
  cases f with
  | constant | var | memory | store => rfl
  | zeroExtend width operand => exact hknown operand (h _ (by simp))
  | arith _ x y | compare _ x y | concat x y =>
    have hx := hknown x (h _ (by simp))
    have hy := hknown y (h _ (by simp))
    simp only [evalTop, eval, hx, hy, Option.bind_eq_bind, Option.bind_some, Option.pure_def]
  | unary _ x | extract _ _ x | signExtend _ x =>
    have hx := hknown x (h _ (by simp))
    simp only [evalTop, eval, hx, Option.bind_eq_bind, Option.bind_some, Option.pure_def]
  | ite cond onTrue onFalse =>
    have hcond := hknown cond (h _ (by simp))
    have htrue := hknown onTrue (h _ (by simp))
    have hfalse := hknown onFalse (h _ (by simp))
    simp only [evalTop, eval, hcond, Option.bind_eq_bind, Option.bind_some]
    split
    · exact hfalse
    · exact htrue
  | select array index =>
    have hindex := hknown index (h _ (by simp))
    simp only [evalTop, hindex]
    exact readStored_eq hknown hclosed (h _ (by simp)) _

end

/-! The walk. -/

namespace Walk

variable {v : Valuation} {f : Formula} {w : Walk}

def Has (w : Walk) (g : Formula) : Prop := w.values.find? g ≠ none

def Waits (stack : List (Formula × Bool)) (g : Formula) : Prop := ∃ opened, (g, opened) ∈ stack

/-- What holds of the walk from `f` at any time. -/
structure Sound (v : Valuation) (f : Formula) (w : Walk) : Prop where
  /-- Every entry of the table is the meaning of its formula. -/
  values : ∀ g value, w.values.find? g = some value → value = g.eval v
  /-- The operands of every entry are entries. -/
  closed : ∀ g, w.Has g → ∀ h ∈ g.children, w.Has h
  /-- Every operand of a formula that was put back has a value or waits above. -/
  covered : ∀ above g below, w.stack = above ++ (g, true) :: below →
    ∀ h ∈ g.children, w.Has h ∨ Waits above h
  /-- The formula itself has a value or waits. -/
  root : w.Has f ∨ Waits w.stack f

/-- Whenever a formula is about to be valued, every look-up for it finds a
value, and the value that it gets is made of these. -/
def Supplied (v : Valuation) (w : Walk) : Prop :=
  ∀ g rest, w.stack = (g, true) :: rest → w.values.find? g = none →
    evalTop v w.values.find? g = some (evalTop (m := Id) v w.found g)

theorem sound_start (v : Valuation) (f : Formula) : Sound v f (start f) where
  values g value h := by simp [start] at h
  closed g h := absurd (Memo.find?_empty g) h
  covered above g below h := by
    have hmem : (g, true) ∈ (start f).stack := by
      rw [h]
      simp
    simp [start] at hmem
  root := .inr ⟨false, by simp [start]⟩

namespace Sound

theorem find?_eq (h : Sound v f w) (hg : w.Has g) : w.values.find? g = some (g.eval v) := by
  obtain ⟨value, hvalue⟩ := Option.ne_none_iff_exists'.1 hg
  rw [hvalue, h.values g value hvalue]

/-- A formula on top that was put back has all its operands in the table. -/
theorem operands (h : Sound v f w) (hstack : w.stack = (g, true) :: rest) :
    ∀ k ∈ g.children, w.Has k := by
  intro k hk
  rcases h.covered [] g rest hstack k hk with hhas | ⟨_, hmem⟩
  · exact hhas
  · cases hmem

theorem evalTop_eq (h : Sound v f w) (hstack : w.stack = (g, true) :: rest) :
    evalTop v w.values.find? g = some (g.eval v) :=
  Formula.evalTop_eq (fun _ => h.find?_eq) h.closed (h.operands hstack)

theorem supplied (h : Sound v f w) : w.Supplied v := by
  intro g rest hstack _
  have hvalue := h.evalTop_eq hstack
  rw [hvalue]
  exact congrArg some (evalTop_id hvalue).symm

theorem drop {stack : List (Formula × Bool)} {opened : Bool} {values : Memo Nat}
    (h : Sound v f { stack, values }) (hstack : stack = (g, opened) :: rest)
    (hg : values.find? g ≠ none) : Sound v f { stack := rest, values } where
  values := h.values
  closed := h.closed
  covered above k below hrest operand hoperand := by
    subst hstack hrest
    rcases h.covered ((g, opened) :: above) k below rfl operand hoperand with hhas | ⟨b, hmem⟩
    · exact .inl hhas
    · rcases List.mem_cons.1 hmem with heq | hmem
      · cases heq
        exact .inl hg
      · exact .inr ⟨b, hmem⟩
  root := by
    subst hstack
    rcases h.root with hhas | ⟨b, hmem⟩
    · exact .inl hhas
    · rcases List.mem_cons.1 hmem with heq | hmem
      · cases heq
        exact .inl hg
      · exact .inr ⟨b, hmem⟩

/-- An entry with its meaning may be added once its operands are there. -/
theorem insert (h : Sound v f w) (hg : ∀ k ∈ g.children, w.Has k) :
    Sound v f { w with values := w.values.insert g (g.eval v) } := by
  have hmono : ∀ k, w.Has k → Has { w with values := w.values.insert g (g.eval v) } k := by
    intro k hk
    simp only [Has, Memo.find?_insert]
    split
    · exact Option.some_ne_none _
    · exact hk
  refine ⟨fun k value hk => ?_, fun k hk operand hoperand => ?_,
    fun above k below hstack operand hoperand => ?_, ?_⟩
  · simp only [Memo.find?_insert] at hk
    split at hk
    · next heq => rw [heq, Option.some.inj hk]
    · exact h.values k value hk
  · simp only [Has, Memo.find?_insert] at hk
    split at hk
    · next heq => exact hmono _ (hg operand (heq ▸ hoperand))
    · exact hmono _ (h.closed k hk operand hoperand)
  · exact (h.covered above k below hstack operand hoperand).imp_left (hmono operand)
  · exact h.root.imp_left (hmono f)

/-- An entry below a formula that is put back was below it before. -/
theorem of_putBack {g k : Formula} {above below : List (Formula × Bool)}
    (h : w.pending g ++ (g, true) :: rest = above ++ (k, true) :: below) :
    (above = w.pending g ∧ k = g) ∨
      ∃ middle, above = w.pending g ++ (g, true) :: middle ∧
        rest = middle ++ (k, true) :: below := by
  have hpending : (k, true) ∉ w.pending g := by simp [pending]
  rcases List.append_eq_append_iff.1 h with ⟨tail, rfl, htail⟩ | ⟨tail, hpend, htail⟩
  · cases tail with
    | nil =>
      obtain ⟨heq, -⟩ := List.cons.inj htail
      cases heq
      exact .inl ⟨List.append_nil _, rfl⟩
    | cons entry middle =>
      obtain ⟨rfl, hrest⟩ := List.cons.inj htail
      exact .inr ⟨middle, rfl, hrest⟩
  · cases tail with
    | nil =>
      obtain ⟨heq, -⟩ := List.cons.inj htail
      cases heq
      exact .inl ⟨by rw [hpend, List.append_nil], rfl⟩
    | cons entry middle =>
      obtain ⟨rfl, -⟩ := List.cons.inj htail
      exact absurd (hpend ▸ by simp) hpending

/-- A formula may be put back under those of its operands that have no value. -/
theorem putBack (h : Sound v f w) (hstack : w.stack = (g, false) :: rest) :
    Sound v f { w with stack := w.pending g ++ (g, true) :: rest } where
  values := h.values
  closed := h.closed
  covered above k below heq operand hoperand := by
    rcases of_putBack heq with ⟨rfl, rfl⟩ | ⟨middle, rfl, hrest⟩
    · by_cases hnone : w.values.find? operand = none
      · exact .inr ⟨false, by simp [pending, hoperand, hnone]⟩
      · exact .inl hnone
    · have hold : w.stack = ((g, false) :: middle) ++ (k, true) :: below := by
        rw [hstack, hrest, List.cons_append]
      refine (h.covered _ k below hold operand hoperand).imp_right ?_
      rintro ⟨opened, hmem⟩
      rcases List.mem_cons.1 hmem with heq | hmem
      · cases heq
        exact ⟨true, by simp⟩
      · exact ⟨opened, by simp [hmem]⟩
  root := by
    refine h.root.imp_right ?_
    rintro ⟨opened, hmem⟩
    rw [hstack] at hmem
    rcases List.mem_cons.1 hmem with heq | hmem
    · cases heq
      exact ⟨true, by simp⟩
    · exact ⟨opened, by simp [hmem]⟩

theorem step (h : Sound v f w) : Sound v f (w.step v) := by
  unfold Walk.step
  split
  · exact h
  · next g opened rest hstack =>
    split
    · next hfound => exact h.drop hstack (Option.isSome_iff_ne_none.1 hfound)
    · split
      · next hopened =>
        subst hopened
        have hvalue : evalTop (m := Id) v w.found g = g.eval v := evalTop_id (h.evalTop_eq hstack)
        rw [hvalue]
        refine (h.insert (h.operands hstack)).drop hstack ?_
        simp [Memo.find?_insert]
      · next hopened =>
        rw [Bool.not_eq_true] at hopened
        subst hopened
        exact h.putBack hstack

end Sound

def after (v : Valuation) : Nat → Walk → Walk
  | 0, w => w
  | n + 1, w => after v n (w.step v)

theorem Sound.after (h : Sound v f w) (n : Nat) : Sound v f (w.after v n) := by
  induction n generalizing w with
  | zero => exact h
  | succ n ih => exact ih h.step

/-- The walk comes to its end by steps, and then its stack is empty. -/
theorem exists_after_eq_finish (v : Valuation) (w : Walk) :
    ∃ n, w.after v n = w.finish v ∧ (w.finish v).stack = [] := by
  fun_induction finish v w with
  | case1 w h => exact ⟨0, rfl, List.isEmpty_iff.1 h⟩
  | case2 w _ ih =>
    obtain ⟨n, hn, hstack⟩ := ih
    exact ⟨n + 1, hn, hstack⟩

end Walk

theorem find?_finish (v : Valuation) (f : Formula) :
    ((Walk.start f).finish v).values.find? f = some (f.eval v) := by
  obtain ⟨n, hn, hstack⟩ := Walk.exists_after_eq_finish v (.start f)
  have hsound : Walk.Sound v f ((Walk.start f).finish v) := hn ▸ (Walk.sound_start v f).after n
  rcases hsound.root with hhas | ⟨_, hmem⟩
  · exact hsound.find?_eq hhas
  · rw [hstack] at hmem
    cases hmem

/-- Sharing does not change the value. -/
theorem value_eq_eval (v : Valuation) (f : Formula) : f.value v = f.eval v := by
  rw [value, Walk.found, find?_finish, Option.getD_some]

/-- **Evaluation computes the meaning.** Whatever the formula, the values of the
variables and the bytes of the memory, the walk from the formula ends after
finitely many steps; at none of them a value is missing that is looked up; and
what it has found for the formula then is the formula's meaning. -/
theorem evaluation_is_meaning (v : Valuation) (f : Formula) :
    ∃ n, (∀ i, ((Walk.start f).after v i).Supplied v) ∧
      ((Walk.start f).after v n).stack = [] ∧
      ((Walk.start f).after v n).values.find? f = some (f.eval v) ∧
      f.value v = f.eval v := by
  obtain ⟨n, hn, hstack⟩ := Walk.exists_after_eq_finish v (.start f)
  refine ⟨n, fun i => ((Walk.sound_start v f).after i).supplied, ?_, ?_, value_eq_eval v f⟩
  · rw [hn, hstack]
  · rw [hn, find?_finish]

end Concolic.Formula
