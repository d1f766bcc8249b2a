import Concolic.Formula.Build
import Concolic.Proofs.Evaluation
import Concolic.Proofs.Word

/-
  Well-formed formulas.

  The constructors refuse operands that do not go together, so the formulas
  they give out obey a rule at every operator (`Formula.Lawful`). A formula is
  well formed in a scope, the widths of the variables in existence, if it obeys
  the rules all the way down and its leaves are in range. A well-formed formula
  has a width between 1 and 128 (`width_range`), and its value under values of
  the variables that fit their widths is a word of that width (`eval_lt`). This
  holds also of a formula with memory arrays of any index width, if it obeys the
  rules otherwise (`Formed`).

  `StandsFor` is what a rewriting of a formula has to keep: well-formedness,
  width and value, and of an array every byte. `Hereditary` is said of what every
  rewriting keeps because it goes from an operator to its operands and back.
-/

namespace Concolic

open Word

variable {f g : Formula} {later : Scope}

/-- The widths of the variables in existence. -/
abbrev Scope := Nat → Option Nat

namespace Scope

def Extends (later earlier : Scope) : Prop :=
  ∀ id width, earlier id = some width → later id = some width

theorem Extends.refl (scope : Scope) : scope.Extends scope := fun _ _ h => h

theorem Extends.trans {a b c : Scope} (h₁ : b.Extends a) (h₂ : c.Extends b) : c.Extends a :=
  fun id width h => h₂ id width (h₁ id width h)

end Scope

/-- Every variable of the scope has a value of its width. -/
def Valuation.Fits (v : Valuation) (scope : Scope) : Prop :=
  ∀ id width, scope id = some width → v.var id < modulus width

namespace Formula

variable {scope : Scope}

/-- The rule of the top operator: its operands have the widths and the kinds that
go together. -/
def Lawful : Formula → Prop
  | constant _ _ | var _ _ | memory _ => True
  | arith _ left right | compare _ left right =>
    left.width = right.width ∧ left.isArray = false ∧ right.isArray = false
  | unary _ operand => operand.isArray = false
  | extract high low operand => low ≤ high ∧ high < operand.width ∧ operand.isArray = false
  | concat high low =>
    high.width + low.width ≤ limit ∧ high.isArray = false ∧ low.isArray = false
  | zeroExtend width operand | signExtend width operand =>
    operand.width ≤ width ∧ width ≤ limit ∧ operand.isArray = false
  | ite cond onTrue onFalse =>
    cond.width = 1 ∧ cond.isArray = false ∧ onTrue.width = onFalse.width ∧
      onTrue.isArray = onFalse.isArray
  | select array index => array.isArray = true ∧ index.isArray = false ∧ index.width = array.width
  | store array index value =>
    array.isArray = true ∧ index.isArray = false ∧ index.width = array.width ∧
      value.width = 8 ∧ value.isArray = false

instance : DecidablePred Lawful := fun f => by
  cases f <;> unfold Lawful <;> infer_instance

/-- A width that a word can have. -/
def WordWidth (width : Nat) : Prop := 1 ≤ width ∧ width ≤ limit

instance (width : Nat) : Decidable (WordWidth width) :=
  inferInstanceAs (Decidable (1 ≤ width ∧ width ≤ limit))

/-- Every operator obeys its rule and every leaf is in range. -/
def WellFormed (scope : Scope) : Formula → Prop
  | constant value width => WordWidth width ∧ value < modulus width
  | var id width => WordWidth width ∧ scope id = some width
  | memory width => WordWidth width
  | arith op left right =>
    (arith op left right).Lawful ∧ left.WellFormed scope ∧ right.WellFormed scope
  | compare op left right =>
    (compare op left right).Lawful ∧ left.WellFormed scope ∧ right.WellFormed scope
  | unary op operand => (unary op operand).Lawful ∧ operand.WellFormed scope
  | extract high low operand => (extract high low operand).Lawful ∧ operand.WellFormed scope
  | concat high low => (concat high low).Lawful ∧ high.WellFormed scope ∧ low.WellFormed scope
  | zeroExtend width operand => (zeroExtend width operand).Lawful ∧ operand.WellFormed scope
  | signExtend width operand => (signExtend width operand).Lawful ∧ operand.WellFormed scope
  | ite cond onTrue onFalse =>
    (ite cond onTrue onFalse).Lawful ∧ cond.WellFormed scope ∧ onTrue.WellFormed scope ∧
      onFalse.WellFormed scope
  | select array index => (select array index).Lawful ∧ array.WellFormed scope ∧
      index.WellFormed scope
  | store array index value =>
    (store array index value).Lawful ∧ array.WellFormed scope ∧ index.WellFormed scope ∧
      value.WellFormed scope

/-- A constant is a word of its width, and a variable is in the scope. -/
def InRange (scope : Scope) : Formula → Prop
  | constant value width => WordWidth width ∧ value < modulus width
  | var id width => WordWidth width ∧ scope id = some width
  | _ => True

/-- Every operator obeys its rule and every constant and variable is in range; a
memory array may have an index of any width. -/
inductive Formed (scope : Scope) : Formula → Prop where
  | intro {f : Formula} (range : f.InRange scope) (lawful : f.Lawful)
      (operands : ∀ g ∈ f.children, Formed scope g) : Formed scope f

/-- No memory array occurs in the formula. -/
def Memoryless : Formula → Prop
  | constant _ _ | var _ _ => True
  | arith _ left right | compare _ left right => left.Memoryless ∧ right.Memoryless
  | unary _ operand | extract _ _ operand => operand.Memoryless
  | zeroExtend _ operand | signExtend _ operand => operand.Memoryless
  | concat high low => high.Memoryless ∧ low.Memoryless
  | ite cond onTrue onFalse => cond.Memoryless ∧ onTrue.Memoryless ∧ onFalse.Memoryless
  | memory _ | select _ _ | store _ _ _ => False

theorem Memoryless.not_array (h : f.Memoryless) : f.isArray = false := by
  cases f <;> first | rfl | exact h.elim

theorem Memoryless.operand (h : f.Memoryless) (hg : g ∈ f.children) : g.Memoryless := by
  cases f <;> simp only [children, List.mem_cons, List.not_mem_nil, or_false] at hg
  case arith | compare | concat =>
    rcases hg with rfl | rfl
    · exact h.1
    · exact h.2
  case unary | extract | zeroExtend | signExtend =>
    subst hg
    exact h
  case ite =>
    rcases hg with rfl | rfl | rfl
    · exact h.1
    · exact h.2.1
    · exact h.2.2
  case select | store => exact h.elim

/-- To show something of every formula, show it of an operator from its operands. -/
theorem operandInduction {motive : Formula → Prop}
    (step : ∀ f, (∀ g ∈ f.children, motive g) → motive f) (f : Formula) : motive f := by
  induction f with
  | constant | var | memory => exact step _ (by simp)
  | unary _ _ hx | extract _ _ _ hx | zeroExtend _ _ hx | signExtend _ _ hx =>
    exact step _ (by simpa using hx)
  | arith _ _ _ hx hy | compare _ _ _ hx hy | concat _ _ hx hy | select _ _ hx hy =>
    exact step _ (by simpa using ⟨hx, hy⟩)
  | ite _ _ _ hx hy hz | store _ _ _ hx hy hz =>
    exact step _ (by simpa using ⟨hx, hy, hz⟩)

section

variable {v : Valuation}

theorem WellFormed.lawful (h : f.WellFormed scope) : f.Lawful := by
  cases f with
  | constant | var | memory => trivial
  | _ => exact h.1

theorem WellFormed.children (h : f.WellFormed scope) (hg : g ∈ f.children) :
    g.WellFormed scope := by
  cases f <;> simp only [children, List.mem_cons, List.not_mem_nil, or_false] at hg
  case arith | compare | concat | select =>
    rcases hg with rfl | rfl
    · exact h.2.1
    · exact h.2.2
  case unary | extract | zeroExtend | signExtend =>
    subst hg
    exact h.2
  case ite | store =>
    rcases hg with rfl | rfl | rfl
    · exact h.2.1
    · exact h.2.2.1
    · exact h.2.2.2

theorem WellFormed.mono (hle : later.Extends scope) (h : f.WellFormed scope) :
    f.WellFormed later := by
  induction f with
  | constant | memory => exact h
  | var id width => exact ⟨h.1, hle id width h.2⟩
  | unary _ _ hx | extract _ _ _ hx | zeroExtend _ _ hx | signExtend _ _ hx =>
    exact ⟨h.1, hx h.2⟩
  | arith _ _ _ hx hy | compare _ _ _ hx hy | concat _ _ hx hy | select _ _ hx hy =>
    exact ⟨h.1, hx h.2.1, hy h.2.2⟩
  | ite _ _ _ hx hy hz | store _ _ _ hx hy hz =>
    exact ⟨h.1, hx h.2.1, hy h.2.2.1, hz h.2.2.2⟩

/-- Every width is one that a word can have; of an array, the width of its
index. -/
theorem WellFormed.width_range (h : f.WellFormed scope) : WordWidth f.width := by
  induction f with
  | constant | var => exact h.1
  | memory => exact h
  | arith _ _ _ hx | store _ _ _ hx => exact hx h.2.1
  | compare => exact (by decide : 1 ≤ 1 ∧ 1 ≤ 128)
  | select => exact (by decide : 1 ≤ 8 ∧ 8 ≤ 128)
  | unary _ _ hx => exact hx h.2
  | extract high low operand hx =>
    obtain ⟨⟨hle, hlt, -⟩, hw⟩ := h
    have hr := hx hw
    simp only [WordWidth, width] at hr ⊢
    omega
  | concat high low hx hy =>
    have hr := hx h.2.1
    have hl := h.1.1
    simp only [WordWidth, width] at hr ⊢
    omega
  | zeroExtend _ operand hx | signExtend _ operand hx =>
    obtain ⟨⟨hle, hlim, -⟩, hw⟩ := h
    have hr := hx hw
    simp only [WordWidth, width] at hr ⊢
    omega
  | ite _ _ _ _ hy => exact hy h.2.2.1

theorem Formed.range (h : f.Formed scope) : f.InRange scope := by
  cases h
  assumption

theorem Formed.lawful (h : f.Formed scope) : f.Lawful := by
  cases h
  assumption

theorem Formed.operand (h : f.Formed scope) (hg : g ∈ f.children) : g.Formed scope := by
  cases h with
  | intro _ _ operands => exact operands g hg

theorem Formed.mono (hle : later.Extends scope) (h : f.Formed scope) : f.Formed later := by
  induction h with
  | @intro f range lawful _ ih =>
    refine .intro ?_ lawful ih
    cases f with
    | constant => exact range
    | var id width => exact ⟨range.1, hle id width range.2⟩
    | _ => trivial

/-- The value of a formula is a word of its width, and a byte read from an array
is a byte. -/
theorem Formed.eval_lt_and (hv : v.Fits scope) (h : f.Formed scope) :
    f.eval v < modulus f.width ∧ ∀ address, f.readArray v address < 256 := by
  have hbyte : ∀ address : Nat, (v.byte address.toUInt64).toNat < 256 := fun _ => UInt8.toNat_lt _
  have hl := h.lawful
  induction f with
  | constant => exact ⟨h.range.2, hbyte⟩
  | var id width => exact ⟨hv id width h.range.2, hbyte⟩
  | memory => exact ⟨modulus_pos _, hbyte⟩
  | arith op left right => exact ⟨op.apply_lt _ _ _, hbyte⟩
  | compare op left right =>
    have hbit : (op.holds left.width (left.eval v) (right.eval v)).toNat < 2 := Bool.toNat_lt _
    exact ⟨hbit, hbyte⟩
  | unary op operand => exact ⟨op.apply_lt _ _, hbyte⟩
  | extract high low operand => exact ⟨truncate_lt _ _, hbyte⟩
  | concat high low hx hy =>
    have hhigh := h.operand (g := high) (by simp)
    have hlow := h.operand (g := low) (by simp)
    exact ⟨join_lt hl.1 (hx hhigh hhigh.lawful).1 (hy hlow hlow.lawful).1, hbyte⟩
  | zeroExtend width operand hx =>
    have hoperand := h.operand (g := operand) (by simp)
    exact ⟨lt_of_lt_of_le (hx hoperand hoperand.lawful).1 (modulus_mono hl.1), hbyte⟩
  | signExtend width operand => exact ⟨signExtend_lt _ _ _, hbyte⟩
  | ite cond onTrue onFalse _ hx hy =>
    have htrue := h.operand (g := onTrue) (by simp)
    have hfalse := h.operand (g := onFalse) (by simp)
    refine ⟨?_, hbyte⟩
    simp only [eval, width]
    split
    · rw [hl.2.2.1]
      exact (hy hfalse hfalse.lawful).1
    · exact (hx htrue htrue.lawful).1
  | select array index hx =>
    have harray := h.operand (g := array) (by simp)
    exact ⟨(hx harray harray.lawful).2 _, hbyte⟩
  | store array index value hx _ hz =>
    have harray := h.operand (g := array) (by simp)
    have hstored := h.operand (g := value) (by simp)
    refine ⟨modulus_pos _, fun address => ?_⟩
    have hvalue := (hz hstored hstored.lawful).1
    rw [hl.2.2.2.1] at hvalue
    simp only [readArray]
    split
    · exact hvalue
    · exact (hx harray harray.lawful).2 address

theorem Formed.eval_lt (h : f.Formed scope) (hv : v.Fits scope) :
    f.eval v < modulus f.width := (h.eval_lt_and hv).1

theorem WellFormed.formed (h : f.WellFormed scope) : f.Formed scope := by
  induction f using operandInduction with
  | step f ih =>
    refine .intro ?_ h.lawful fun g hg => ih g hg (h.children hg)
    cases f with
    | constant | var => exact h
    | _ => trivial

theorem WellFormed.eval_lt (h : f.WellFormed scope) (hv : v.Fits scope) :
    f.eval v < modulus f.width := h.formed.eval_lt hv

/-- A one-bit formula is zero or one. -/
theorem Formed.eval_bit (h : f.Formed scope) (hv : v.Fits scope) (hw : f.width = 1) :
    f.eval v = 0 ∨ f.eval v = 1 := by
  have hlt := h.eval_lt hv
  rw [hw] at hlt
  have h2 : f.eval v < 2 := hlt
  omega

theorem WellFormed.eval_bit (h : f.WellFormed scope) (hv : v.Fits scope) (hw : f.width = 1) :
    f.eval v = 0 ∨ f.eval v = 1 := h.formed.eval_bit hv hw

end

/-! What a formula may be replaced by. -/

/-- The formula `f` has the width and the value of `g`, and where `g` is an
array, its bytes. -/
structure StandsFor (scope : Scope) (f g : Formula) : Prop where
  wellFormed : f.WellFormed scope
  width_eq : f.width = g.width
  eval_eq : ∀ v, v.Fits scope → f.eval v = g.eval v
  memoryless : g.Memoryless → f.Memoryless
  isArray : g.isArray = true → f.isArray = true
  readArray_eq : g.isArray = true → ∀ v, v.Fits scope →
    ∀ address, f.readArray v address = g.readArray v address

theorem StandsFor.refl (h : f.WellFormed scope) : f.StandsFor scope f :=
  ⟨h, rfl, fun _ _ => rfl, id, id, fun _ _ _ _ => rfl⟩

theorem StandsFor.trans {f g h : Formula} (h₁ : f.StandsFor scope g)
    (h₂ : g.StandsFor scope h) : f.StandsFor scope h where
  wellFormed := h₁.wellFormed
  width_eq := h₁.width_eq.trans h₂.width_eq
  eval_eq v hv := (h₁.eval_eq v hv).trans (h₂.eval_eq v hv)
  memoryless hm := h₁.memoryless (h₂.memoryless hm)
  isArray ha := h₁.isArray (h₂.isArray ha)
  readArray_eq ha v hv address :=
    (h₁.readArray_eq (h₂.isArray ha) v hv address).trans (h₂.readArray_eq ha v hv address)

theorem StandsFor.word (hwf : f.WellFormed scope) (hg : g.isArray = false)
    (hw : f.width = g.width) (he : ∀ v, v.Fits scope → f.eval v = g.eval v)
    (hm : g.Memoryless → f.Memoryless) : f.StandsFor scope g :=
  ⟨hwf, hw, he, hm, fun h => by simp [hg] at h, fun h => by simp [hg] at h⟩

/-- A word, and where it is a choice, a choice between words. -/
def IsWord : Formula → Prop
  | memory _ | store _ _ _ => False
  | ite _ onTrue onFalse => onTrue.isArray = false ∧ onFalse.isArray = false
  | _ => True

theorem IsWord.isArray (h : f.IsWord) : f.isArray = false := by
  cases f with
  | memory | store => exact h.elim
  | _ => rfl

/-! What rewriting keeps. -/

/-- The property holds of formed formulas only, of the constants in range, and
goes from an operator to its operands and, if the operator obeys its rule, from
the operands to the operator. -/
structure Hereditary (scope : Scope) (kept : Formula → Prop) : Prop where
  formed : ∀ {f}, kept f → f.Formed scope
  constant : ∀ {value width}, WordWidth width → value < modulus width →
    kept (.constant value width)
  operand : ∀ {f g}, kept f → g ∈ f.children → kept g
  operator : ∀ {f}, f.Lawful → f.children ≠ [] → (∀ g ∈ f.children, kept g) → kept f

theorem Formed.hereditary (scope : Scope) : Hereditary scope (Formed scope) where
  formed h := h
  constant hw hv := .intro ⟨hw, hv⟩ trivial (by simp)
  operand h hg := h.operand hg
  operator {f} hl hne hc := by
    refine .intro ?_ hl hc
    cases f with
    | constant | var => exact absurd rfl hne
    | _ => trivial

theorem WellFormed.of_operands (hl : f.Lawful) (hne : f.children ≠ [])
    (hc : ∀ g ∈ f.children, g.WellFormed scope) : f.WellFormed scope := by
  cases f with
  | constant | var | memory => exact absurd rfl hne
  | _ =>
    simp only [Formula.children, List.forall_mem_cons, List.not_mem_nil, false_implies, implies_true,
      and_true] at hc
    exact ⟨hl, hc⟩

theorem Memoryless.of_operands (hl : f.Lawful) (hne : f.children ≠ [])
    (hc : ∀ g ∈ f.children, g.Memoryless) : f.Memoryless := by
  cases f with
  | constant | var | memory => exact absurd rfl hne
  | select array _ | store array _ _ =>
    have hword := (hc array (by simp)).not_array
    rw [hl.1] at hword
    cases hword
  | _ =>
    simp only [children, List.forall_mem_cons, List.not_mem_nil, false_implies, implies_true,
      and_true] at hc
    exact hc

theorem WellFormed.hereditary (scope : Scope) : Hereditary scope (WellFormed scope) where
  formed h := h.formed
  constant hw hv := ⟨hw, hv⟩
  operand h hg := h.children hg
  operator hl hne hc := .of_operands hl hne hc

/-- Having no memory may be kept as well. -/
theorem Hereditary.memoryless {kept : Formula → Prop} (h : Hereditary scope kept)
    (bare : Prop) : Hereditary scope fun f => kept f ∧ (bare → f.Memoryless) where
  formed hf := h.formed hf.1
  constant hw hv := ⟨h.constant hw hv, fun _ => trivial⟩
  operand hf hg := ⟨h.operand hf.1 hg, fun hb => (hf.2 hb).operand hg⟩
  operator hl hne hc :=
    ⟨h.operator hl hne fun g hg => (hc g hg).1,
      fun hb => .of_operands hl hne fun g hg => (hc g hg).2 hb⟩

/-- Two such properties may be kept together, the second under a condition. -/
theorem Hereditary.and {kept also : Formula → Prop} (h : Hereditary scope kept)
    (h' : Hereditary scope also) (p : Prop) : Hereditary scope fun f => kept f ∧ (p → also f) where
  formed hf := h.formed hf.1
  constant hw hv := ⟨h.constant hw hv, fun _ => h'.constant hw hv⟩
  operand hf hg := ⟨h.operand hf.1 hg, fun hp => h'.operand (hf.2 hp) hg⟩
  operator hl hne hc :=
    ⟨h.operator hl hne fun g hg => (hc g hg).1,
      fun hp => h'.operator hl hne fun g hg => (hc g hg).2 hp⟩

/-- The property is hereditary in every scope, and it holds of the variables of the
scope. -/
structure Stable (kept : Scope → Formula → Prop) : Prop where
  hereditary : ∀ scope, Hereditary scope (kept scope)
  var : ∀ {scope : Scope} {id width}, WordWidth width → scope id = some width →
    kept scope (.var id width)

theorem WellFormed.stable : Stable WellFormed where
  hereditary := hereditary
  var hw hid := ⟨hw, hid⟩

theorem Formed.stable : Stable Formed where
  hereditary := hereditary
  var hw hid := .intro ⟨hw, hid⟩ trivial (by simp)

/-- The formula is kept, it has the width and the value of `g`, and it is a word or an
array as that is. -/
structure Renders (scope : Scope) (kept : Formula → Prop) (f g : Formula) : Prop where
  kept : kept f
  width_eq : f.width = g.width
  word : g.IsWord → f.isArray = false
  array : g.isArray = true → f = g
  eval_eq : ∀ v, v.Fits scope → f.eval v = g.eval v

namespace Renders

variable {scope : Scope} {kept : Formula → Prop} {f g h : Formula}

theorem refl (hf : kept f) : f.Renders scope kept f :=
  ⟨hf, rfl, IsWord.isArray, fun _ => rfl, fun _ _ => rfl⟩

theorem trans (h₁ : f.Renders scope kept g) (hg : g.IsWord) (h₂ : g.Renders scope kept h) :
    f.Renders scope kept h where
  kept := h₁.kept
  width_eq := h₁.width_eq.trans h₂.width_eq
  word _ := h₁.word hg
  array ha := by
    have hword := hg.isArray
    rw [h₂.array ha, ha] at hword
    cases hword
  eval_eq v hv := (h₁.eval_eq v hv).trans (h₂.eval_eq v hv)

/-- What is well formed, and without memory as `g` is, stands for it. -/
theorem standsFor
    (h : f.Renders scope (fun f => f.WellFormed scope ∧ (g.Memoryless → f.Memoryless)) g) :
    f.StandsFor scope g where
  wellFormed := h.kept.1
  width_eq := h.width_eq
  eval_eq := h.eval_eq
  memoryless := h.kept.2
  isArray ha := h.array ha ▸ ha
  readArray_eq ha v hv address := by rw [h.array ha]

end Renders

end Formula

def Context.scope (ctx : Context) : Scope := fun id => ctx.vars[id]?.map Variable.width

end Concolic
