import Concolic.Proofs.WellFormed

/-
  The constructors keep the meaning of what they build.

  `Answers rules x r`: under the rules, the construction `x` has the result `r`
  in every context, and leaves of the context everything but the pool as it was.
  `Makes rules sure x post`: it has one result, what it answers is so, and it does
  answer if `sure`.

  There is one lemma for each constructor, which says what it does on operands that go
  together (`Way`): under any rules it ends in a part of the operator, in a constant, or
  in the operator of another constructor, with the width and the value of its own. On
  other operands it fails (`Call.fails`). So it answers a formula with the width and the
  value of its plain operator (`Call.renders`). A property that goes from an operator to
  its operands and back (`Hereditary`) is kept on the way, so that what is answered stands
  for the operator if that is well formed (`Call.builds`).
-/

namespace Concolic

open Word Formula
open Formula (Hereditary WordWidth children eval readArray)

variable {f g left right index array : Formula} {high low width : Nat} {scope : Scope}
  {call : Call}

/-- The error stands for a request that no caller may make. -/
def Error.isFatal : Error → Bool
  | constantWidth _ => true
  | invalidWidth (.difference _ _) => true
  | invalidOperand _ .overflow => true
  | _ => false

/-! Parts in a row. -/

/-- What is shown of a part is shown of answers that are so, and of parts in a row. -/
structure Composes {m : Type → Type} [Monad m] (shown : ∀ {α : Type}, m α → (α → Prop) → Prop) :
    Prop where
  pure : ∀ {α : Type} {a : α} {post : α → Prop}, post a → shown (pure a) post
  bind : ∀ {α β : Type} {x : m α} {k : α → m β} {post : α → Prop} {post' : β → Prop},
    shown x post → (∀ a, post a → shown (k a) post') → shown (x >>= k) post'

section

variable {m : Type → Type} [Monad m] {shown : ∀ {α : Type}, m α → (α → Prop) → Prop}
  (C : Composes shown) {α ι : Type} {post : α → Prop} (l : List ι)

include C

theorem Composes.mapM [LawfulMonad m] {f : ι → m α} (h : ∀ i ∈ l, shown (f i) post) :
    shown (l.mapM f) fun as => as.length = l.length ∧ ∀ a ∈ as, post a := by
  induction l with
  | nil =>
    rw [List.mapM_nil]
    exact C.pure ⟨rfl, by simp⟩
  | cons i l ih =>
    rw [List.mapM_cons]
    refine C.bind (h i (by simp)) fun a ha => ?_
    refine C.bind (ih fun j hj => h j (by simp [hj])) fun as has => C.pure ⟨?_, ?_⟩
    · rw [List.length_cons, List.length_cons, has.1]
    · exact List.forall_mem_cons.2 ⟨ha, has.2⟩

theorem Composes.foldlM {f : α → ι → m α} (h : ∀ i ∈ l, ∀ a, post a → shown (f a i) post) {a : α}
    (ha : post a) : shown (l.foldlM f a) post := by
  induction l generalizing a with
  | nil =>
    exact C.pure ha
  | cons i l ih =>
    rw [List.foldlM_cons]
    exact C.bind (h i (by simp) a ha) fun b hb => ih (fun j hj => h j (by simp [hj])) hb

end

namespace Build

def outcome {σ α : Type} (r : Except Error α) (state : σ) : EStateM.Result Error σ α :=
  match r with
  | .ok a => .ok a state
  | .error error => .error error state

theorem run_bind {α β : Type} (x : Build α) (k : α → Build β) (rules : Rules) (ctx : Context) :
    (x >>= k) rules ctx = match x rules ctx with
      | .ok a ctx => k a rules ctx
      | .error error ctx => .error error ctx := by
  show EStateM.bind (x rules) (fun a => k a rules) ctx = _
  unfold EStateM.bind
  cases x rules ctx <;> rfl

/-- The construction has this result in every context. -/
def Answers {α : Type} (rules : Rules) (x : Build α) (r : Except Error α) : Prop :=
  ∀ ctx, ∃ pool, x rules ctx = outcome r { ctx with pool }

namespace Answers

variable {α β : Type} {rules : Rules} {x : Build α}

theorem pure (a : α) : Answers rules (pure a) (.ok a) := fun ctx => ⟨ctx.pool, rfl⟩

theorem throw (error : Error) : Answers rules (throw error : Build α) (.error error) :=
  fun ctx => ⟨ctx.pool, rfl⟩

theorem bind {k : α → Build β} {a : α} {r : Except Error β} (hx : Answers rules x (.ok a))
    (hk : Answers rules (k a) r) : Answers rules (x >>= k) r := by
  intro ctx
  obtain ⟨pool, h⟩ := hx ctx
  obtain ⟨pool', h'⟩ := hk { ctx with pool }
  exact ⟨pool', by rw [run_bind, h]; exact h'⟩

theorem bind_error (k : α → Build β) {error : Error} (hx : Answers rules x (.error error)) :
    Answers rules (x >>= k) (.error error) := by
  intro ctx
  obtain ⟨pool, h⟩ := hx ctx
  exact ⟨pool, by rw [run_bind, h]; rfl⟩

theorem intern (f : Formula) : Answers rules (intern f) (.ok f) := by
  intro ctx
  refine ⟨(ctx.pool.intern f).2, ?_⟩
  simp only [Build.intern, Pool.intern_fst, outcome]

theorem constant (h : WordWidth width) (value : Nat) :
    Answers rules (constant value width) (.ok (.constant (Word.truncate width value) width)) := by
  unfold Build.constant
  rw [if_pos (show 1 ≤ width ∧ width ≤ limit from h)]
  exact intern _

theorem constant_error (h : ¬ WordWidth width) (value : Nat) :
    Answers rules (Build.constant value width) (.error (.constantWidth width)) := by
  unfold Build.constant
  rw [if_neg (show ¬ (1 ≤ width ∧ width ≤ limit) from h)]
  exact throw _

theorem unique {r r' : Except Error α} (h : Answers rules x r) (h' : Answers rules x r') :
    r = r' := by
  obtain ⟨pool, e⟩ := h {}
  obtain ⟨pool', e'⟩ := h' {}
  cases r <;> cases r' <;> simp_all [outcome]

end Answers

/-- The construction has one result in every context, what it answers is so, and it
answers if `sure`. -/
def Makes {α : Type} (rules : Rules) (sure : Prop) (x : Build α) (post : α → Prop) : Prop :=
  ∃ r, Answers rules x r ∧ (∀ a, r = .ok a → post a) ∧ (sure → ∃ a, r = .ok a)

namespace Makes

variable {α β ι : Type} {rules : Rules} {sure : Prop} {x : Build α} {post : α → Prop} {a : α}

theorem of_answers (hx : Answers rules x (.ok a)) (h : post a) : Makes rules sure x post :=
  ⟨.ok a, hx, fun _ hb => Except.ok.inj hb ▸ h, fun _ => ⟨a, rfl⟩⟩

theorem pure (h : post a) : Makes rules sure (pure a) post := of_answers (.pure a) h

theorem throw (e : Error) (h : ¬ sure) : Makes rules sure (throw e : Build α) post :=
  ⟨.error e, .throw e, nofun, fun hs => absurd hs h⟩

theorem answers (h : Makes rules sure x post) (hs : sure) :
    ∃ a, Answers rules x (.ok a) ∧ post a := by
  obtain ⟨r, hr, hpost, hok⟩ := h
  obtain ⟨a, rfl⟩ := hok hs
  exact ⟨a, hr, hpost a rfl⟩

theorem mono {sure' : Prop} {post' : α → Prop} (h : Makes rules sure x post)
    (hsure : sure' → sure) (hpost : ∀ a, post a → post' a) : Makes rules sure' x post' := by
  obtain ⟨r, hr, hall, hok⟩ := h
  exact ⟨r, hr, fun a ha => hpost a (hall a ha), fun hs => hok (hsure hs)⟩

theorem bind {k : α → Build β} {post' : β → Prop} (hx : Makes rules sure x post)
    (hk : ∀ a, post a → Makes rules sure (k a) post') : Makes rules sure (x >>= k) post' := by
  obtain ⟨r, hr, hpost, hok⟩ := hx
  cases r with
  | ok a =>
    obtain ⟨r', hr', hpost', hok'⟩ := hk a (hpost a rfl)
    exact ⟨r', hr.bind hr', hpost', hok'⟩
  | error e =>
    refine ⟨.error e, hr.bind_error k, nofun, fun hs => ?_⟩
    obtain ⟨a, ha⟩ := hok hs
    cases ha

theorem congr {y : Build α} (h : x rules = y rules) (hy : Makes rules sure y post) :
    Makes rules sure x post := by
  unfold Makes Answers at *
  rwa [h]

theorem composes : Composes fun {α : Type} (x : Build α) post => Makes rules sure x post :=
  ⟨.pure, .bind⟩

theorem mapM {f : ι → Build α} (l : List ι) (h : ∀ i ∈ l, Makes rules sure (f i) post) :
    Makes rules sure (l.mapM f) fun as => as.length = l.length ∧ ∀ a ∈ as, post a :=
  composes.mapM l h

theorem foldlM {f : α → ι → Build α} (l : List ι)
    (h : ∀ i ∈ l, ∀ a, post a → Makes rules sure (f a i) post) (ha : post a) :
    Makes rules sure (l.foldlM f a) post := composes.foldlM l h ha

/-- A constant, if there is one of this width. -/
theorem word (value width : Nat) :
    Makes rules (WordWidth width) (constant value width) fun f =>
      WordWidth width ∧ f = .constant (Word.truncate width value) width := by
  by_cases hw : WordWidth width
  · exact of_answers (.constant hw value) ⟨hw, rfl⟩
  · exact ⟨_, .constant_error hw value, nofun, fun h => absurd h hw⟩

end Makes

/-- The construction makes a formula that renders `plain`, if `plain` has a width that a
word can have. -/
def Renders (scope : Scope) (kept : Formula → Prop) (rules : Rules) (x : Build Formula)
    (plain : Formula) : Prop :=
  Makes rules (WordWidth plain.width) x (Formula.Renders scope kept · plain)

end Build

/-! What a constructor may answer. -/

namespace Formula

theorem constant?_eq_some {a : Nat} (h : f.constant? = some a) : f = constant a f.width := by
  cases f <;> simp only [constant?, Option.some.injEq, reduceCtorEq] at h
  rw [h]
  rfl

theorem eval_of_constant? {a : Nat} (h : f.constant? = some a) (v : Valuation) : f.eval v = a := by
  rw [constant?_eq_some h]
  rfl

/-- The operands, and their operands. -/
@[simp] def nearby (f : Formula) : List Formula := f.children ++ f.children.flatMap children

theorem of_mem_nearby {P : Formula → Prop} (hop : ∀ {f g}, P f → g ∈ f.children → P g)
    (h : ∀ g ∈ f.children, P g) (hg : g ∈ f.nearby) : P g := by
  rcases List.mem_append.1 hg with hg | hg
  · exact h g hg
  · obtain ⟨k, hk, hg⟩ := List.mem_flatMap.1 hg
    exact hop (h k hk) hg

theorem Formed.part (h : f.Formed scope) (hg : g ∈ f.nearby) : g.Formed scope :=
  of_mem_nearby .operand (fun _ => h.operand) hg

/-- Every operator obeys its rule. -/
inductive Regular : Formula → Prop where
  | intro {f : Formula} (lawful : f.Lawful) (operands : ∀ g ∈ f.children, Regular g) : Regular f

theorem Regular.lawful (h : f.Regular) : f.Lawful := by
  cases h
  assumption

theorem Regular.operand (h : f.Regular) (hg : g ∈ f.children) : g.Regular := by
  cases h with
  | intro _ operands => exact operands g hg

theorem Regular.part (h : f.Regular) (hg : g ∈ f.nearby) : g.Regular :=
  of_mem_nearby .operand (fun _ => h.operand) hg

theorem Regular.of_operand {P : Formula → Prop} (hl : ∀ {f}, P f → f.Lawful)
    (hop : ∀ {f g}, P f → g ∈ f.children → P g) : P f → f.Regular := by
  induction f using operandInduction with
  | step f ih => exact fun h => .intro (hl h) fun g hg => ih g hg (hop h hg)

/-- The formula has the width of the word `g`, and the value wherever `g` is formed. -/
structure Serves (f g : Formula) : Prop where
  width_eq : f.width = g.width
  word : g.IsWord → f.isArray = false
  isArray : g.isArray = false
  eval_eq : ∀ {scope v}, g.Formed scope → v.Fits scope → f.eval v = g.eval v

namespace Serves

theorem of_word (hf : f.isArray = false) (hg : g.isArray = false) (hw : f.width = g.width)
    (he : ∀ {scope v}, g.Formed scope → v.Fits scope → f.eval v = g.eval v) : f.Serves g :=
  ⟨hw, fun _ => hf, hg, he⟩

theorem renders {kept : Formula → Prop} (hk : Hereditary scope kept) (h : f.Serves g) (hf : kept f)
    (hg : kept g) : f.Renders scope kept g :=
  ⟨hf, h.width_eq, h.word, fun ha => by simp [h.isArray] at ha,
    fun _ hv => h.eval_eq (hk.formed hg) hv⟩

end Serves

end Formula

/-! All constructors as one. -/

/-- The top operator built anew over its operands. -/
def Formula.anew : Formula → Build Formula
  | arith op left right => Build.arith op left right
  | compare op left right => Build.compare op left right
  | unary op operand => Build.unary op operand
  | extract high low operand => Build.extract high low operand
  | concat high low => Build.concat high low
  | zeroExtend width operand => Build.zeroExtend width operand
  | signExtend width operand => Build.signExtend width operand
  | ite cond onTrue onFalse => Build.ite cond onTrue onFalse
  | select array index => Build.select array index
  | store array index value => Build.store array index value
  | f => pure f

/-- A constructor with its arguments. -/
inductive Call where
  | arith (op : ArithOp) (left right : Formula)
  | compare (op : CompareOp) (left right : Formula)
  | unary (op : UnaryOp) (operand : Formula)
  | extract (high low : Nat) (operand : Formula)
  | concat (high low : Formula)
  | zeroExtend (width : Nat) (operand : Formula)
  | signExtend (width : Nat) (operand : Formula)
  | ite (cond onTrue onFalse : Formula)
  | select (array index : Formula)
  | store (array index value : Formula)

namespace Call

/-- The operator over its operands as they are, with nothing simplified. -/
@[simp] def plain : Call → Formula
  | arith op left right => .arith op left right
  | compare op left right => .compare op left right
  | unary op operand => .unary op operand
  | extract high low operand => .extract high low operand
  | concat high low => .concat high low
  | zeroExtend width operand => .zeroExtend width operand
  | signExtend width operand => .signExtend width operand
  | ite cond onTrue onFalse => .ite cond onTrue onFalse
  | select array index => .select array index
  | store array index value => .store array index value

def run (call : Call) : Build Formula := call.plain.anew

/-- A formula is well formed if its top operator obeys its rule and its operands
are well formed. -/
theorem wellFormed_plain (hl : call.plain.Lawful)
    (hc : ∀ f ∈ call.plain.children, f.WellFormed scope) : call.plain.WellFormed scope := by
  cases call <;> simp only [plain, children, List.forall_mem_cons, List.not_mem_nil,
    false_implies, implies_true, and_true] at hc <;> exact ⟨hl, hc⟩

theorem children_ne (call : Call) : call.plain.children ≠ [] := by cases call <;> simp

end Call

namespace Build

variable {scope : Scope} {rules : Rules}

/-! Binary operators. -/

/-- What an identity leaves, as a number. -/
def Reduct.value (v : Valuation) : Reduct → Nat
  | .operand f => f.eval v
  | .word value => value

theorem identity_operand {op : ArithOp} (h : identity? op left right = some (.operand f)) :
    f = left := by
  cases op <;> simp only [identity?] at h <;> grind

theorem identity_word {op : ArithOp} {value : Nat}
    (h : identity? op left right = some (.word value)) : value < modulus left.width := by
  have hones := ones_lt left.width
  cases op <;> simp only [identity?] at h <;> grind

/-- The identities hold. -/
theorem identity_value {op : ArithOp} {r : Reduct} {v : Valuation}
    (h : identity? op left right = some r) (hleft : left.Formed scope) (hv : v.Fits scope) :
    op.apply left.width (left.eval v) (right.eval v) = r.value v := by
  have hlt := hleft.eval_lt hv
  rcases eq_zero_or_pos left.width with hnone | hpos
  · -- there is one word without bits
    have hone : modulus left.width = 1 := by rw [hnone]; rfl
    have hvalue : r.value v < modulus left.width := by
      cases r with
      | operand f => rw [identity_operand h]; exact hlt
      | word value => exact identity_word h
    have happly := op.apply_lt left.width (left.eval v) (right.eval v)
    omega
  have hc : ∀ {a}, right.constant? = some a → right.eval v = a := fun h => eval_of_constant? h v
  cases op <;> simp only [identity?] at h
  case add =>
    split at h <;> cases h
    next h0 => rw [hc h0]; exact add_zero hlt
  case sub =>
    split at h
    · next h0 => cases h; rw [hc h0]; exact sub_zero hlt
    · split at h <;> cases h
      next he => rw [← he]; exact sub_self _ _
  case xor =>
    split at h
    · next h0 => cases h; rw [hc h0]; exact xor_zero hlt
    · split at h <;> cases h
      next he => rw [← he]; exact xor_self _ _
  case or =>
    split at h
    · next h0 =>
      cases h
      rcases h0 with h0 | he
      · rw [hc h0]; exact or_zero hlt
      · rw [← he]; exact or_self hlt
    · split at h <;> cases h
      next h1 => rw [hc h1]; exact or_ones hlt
  case and =>
    split at h
    · next h0 => cases h; rw [hc h0]; exact and_zero _ _
    · split at h <;> cases h
      next h1 =>
      rcases h1 with h1 | he
      · rw [hc h1]; exact and_ones hlt
      · rw [← he]; exact and_self hlt
  case mul =>
    split at h
    · next h0 => cases h; rw [hc h0]; exact mul_zero _ _
    · split at h <;> cases h
      next h1 => rw [hc h1]; exact mul_one hlt
  case udiv =>
    split at h <;> cases h
    next h1 => rw [hc h1]; exact udiv_one hlt
  case sdiv =>
    split at h <;> cases h
    next h1 => rw [hc h1]; exact sdiv_one hpos hlt
  case urem =>
    split at h <;> cases h
    next h1 => rw [hc h1]; exact urem_one _ _
  case srem =>
    split at h <;> cases h
    next h1 => rw [hc h1]; exact srem_one hpos _
  case ashr =>
    split at h <;> cases h
    next h0 => rw [hc h0]; exact ashr_zero hpos hlt
  case shl =>
    split at h
    · next h0 => cases h; rw [hc h0]; exact shl_zero hpos hlt
    · next count _ h0 =>
      split at h <;> cases h
      next hge => rw [hc h0]; exact if_pos hge
    · cases h
  case lshr =>
    split at h
    · next h0 => cases h; rw [hc h0]; exact lshr_zero hpos hlt
    · next count _ h0 =>
      split at h <;> cases h
      next hge => rw [hc h0]; exact if_pos hge
    · cases h
  case rol =>
    split at h
    · next count h0 =>
      split at h <;> cases h
      next hm => rw [hc h0]; exact rol_of_mod_eq_zero hlt hm
    · cases h
  case ror =>
    split at h
    · next count h0 =>
      split at h <;> cases h
      next hm => rw [hc h0]; exact ror_of_mod_eq_zero hlt hm
    · cases h

/-! The ways of a construction. -/

/-- What the constructor of `plain` does under the rules: it enters the operator as it is,
answers a constant or a part that serves for it, or goes on with a constructor that does,
on parts of it or on a part and a constant. -/
inductive Way (rules : Rules) : Build Formula → Formula → Prop where
  | same {x y : Build Formula} {plain : Formula} (h : x rules = y rules) (way : Way rules y plain) :
      Way rules x plain
  | asIs (plain : Formula) : Way rules (intern plain) plain
  | word {plain : Formula} {value width : Nat}
      (serves : (Formula.constant (Word.truncate width value) width).Serves plain) :
      Way rules (constant value width) plain
  | part {plain f : Formula} (mem : f ∈ plain.nearby) (serves : f.Serves plain) :
      Way rules (pure f) plain
  | call {plain : Formula} (c : Call) (lawful : c.plain.Lawful) (isWord : c.plain.IsWord)
      (mem : ∀ g ∈ c.plain.children, g ∈ plain.nearby) (serves : c.plain.Serves plain)
      (way : Way rules c.run c.plain) : Way rules c.run plain
  | merge {plain operand c : Formula} {op : ArithOp} {value : Nat}
      (hc : c = .constant (Word.truncate operand.width value) operand.width)
      (lawful : (Formula.arith op operand c).Lawful) (mem : operand ∈ plain.nearby)
      (serves : (Formula.arith op operand c).Serves plain)
      (same : combine op operand c rules = arith op operand c rules)
      (way : Way rules (combine op operand c) (.arith op operand c)) :
      Way rules (constant value operand.width >>= combine op operand) plain

theorem Way.read {k : Rules → Build Formula} {plain : Formula} (way : Way rules (k rules) plain) :
    Way rules (read >>= k) plain := .same (y := k rules) rfl way

/-- The construction goes on with a constructor on parts of a regular operator. -/
theorem Way.goOn {plain : Formula} (h : plain.Regular) (c : Call) (hl : c.plain.Lawful)
    (hword : c.plain.IsWord) (mem : ∀ g ∈ c.plain.children, g ∈ plain.nearby)
    (serves : c.plain.Serves plain) (way : c.plain.Regular → Way rules c.run c.plain) :
    Way rules c.run plain :=
  .call c hl hword mem serves (way (.intro hl fun g hg => h.part (mem g hg)))

theorem Way.flag {value : Bool} {plain : Formula} (hplain : plain.isArray = false)
    (hbit : plain.width = 1)
    (he : ∀ {scope v}, plain.Formed scope → v.Fits scope → plain.eval v = value.toNat) :
    Way rules (flag value) plain :=
  .word (.of_word rfl hplain hbit.symm fun h hv => (he h hv).symm ▸ by cases value <;> rfl)

/-- The three ways of a construction from one operand. -/
theorem Way.fromOperand {f plain : Formula} {folded : Nat → Build Formula} {reduced : Build Formula}
    (hfolded : ∀ a, f.constant? = some a → Way rules (folded a) plain)
    (hreduced : Way rules reduced plain) :
    Way rules (fromOperand f folded reduced (intern plain)) plain := by
  refine .read ?_
  split
  · next a _ ha => exact hfolded a ha
  · split
    · exact hreduced
    · exact .asIs _

/-- The constant of a commutative operator is on the left, and goes to the right. -/
abbrev Swaps (rules : Rules) (op : ArithOp) (left right : Formula) : Prop :=
  rules.identities ∧ op.commutative ∧ left.constant?.isSome ∧ right.constant?.isNone

theorem run_arith {op : ArithOp} (h : (Formula.arith op left right).Lawful) :
    arith op left right rules = (if Swaps rules op left right then combine op right left
      else combine op left right) rules := by
  unfold arith
  rw [if_neg (by simp [h.1, h.2.1, h.2.2])]
  rfl

theorem run_combine {op : ArithOp} (h : (Formula.arith op left right).Lawful)
    (hswap : ¬ Swaps rules op left right) :
    combine op left right rules = arith op left right rules := by rw [run_arith h, if_neg hswap]

/-- Merging the constants of nested equal operators keeps the value. -/
theorem merge_serves {op : ArithOp} {operand factor : Formula} {a b : Nat}
    (hop : op.commutative = true) (ha : factor.constant? = some a) (hb : right.constant? = some b)
    (hwidth : operand.width = right.width) :
    (Formula.arith op operand
      (.constant (Word.truncate operand.width (op.apply operand.width a b))
        operand.width)).Serves (.arith op (.arith op operand factor) right) := by
  refine .of_word rfl rfl rfl fun h hv => ?_
  have hlt : b < modulus operand.width := by
    have := (h.operand (g := right) (by simp)).eval_lt hv
    rwa [eval_of_constant? hb, ← hwidth] at this
  simp only [eval, Formula.width, eval_of_constant? ha, eval_of_constant? hb]
  rw [truncate_of_lt (op.apply_lt _ _ _),
    op.apply_assoc hop a ((h.part (g := operand) (by simp)).eval_lt hv) hlt]

theorem combine_way {op : ArithOp} (left : Formula) {right : Formula}
    (h : (Formula.arith op left right).Regular) :
    Way rules (combine op left right) (.arith op left right) := by
  obtain ⟨hwidth, hword, -⟩ := h.lawful
  unfold combine
  refine .read ?_
  split
  · next a b _ ha hb =>
    refine .word (.of_word rfl rfl rfl fun _ _ => ?_)
    simp only [eval, truncate_of_lt (op.apply_lt _ _ _), eval_of_constant? ha,
      eval_of_constant? hb]
  · split
    · split
      · next f hid =>
        cases identity_operand hid
        refine .part (by simp) (.of_word hword rfl rfl fun hplain hv => ?_)
        exact (identity_value hid (hplain.operand (by simp)) hv).symm
      · next value hid =>
        refine .word (.of_word rfl rfl rfl fun hplain hv => ?_)
        rw [eval, truncate_of_lt (identity_word hid)]
        exact (identity_value hid (hplain.operand (by simp)) hv).symm
      · split
        · next inner operand factor b hb _ _ =>
          split
          · next a ha =>
            split
            · next hop =>
              -- the two constants become one, and the outcome is combined again
              obtain ⟨rfl, hop⟩ := hop
              have hleft := h.operand (g := .arith inner operand factor) (by simp)
              obtain ⟨-, hoperand, -⟩ := hleft.lawful
              refine .merge rfl ⟨rfl, hoperand, rfl⟩ (by simp) (merge_serves hop ha hb hwidth)
                (run_combine ⟨rfl, hoperand, rfl⟩ fun hswap => by cases hswap.2.2.2)
                (combine_way operand (.intro ⟨rfl, hoperand, rfl⟩ ?_))
              simpa using ⟨h.part (by simp), .intro trivial (by simp)⟩
            · exact .asIs _
          · exact .asIs _
        · exact .asIs _
    · exact .asIs _

theorem arith_way {op : ArithOp} (h : (Formula.arith op left right).Regular) :
    Way rules (arith op left right) (.arith op left right) := by
  obtain ⟨hw, hl, hr⟩ := h.lawful
  refine .same (run_arith h.lawful) ?_
  split
  · next hswap =>
    -- the constant goes to the right of a commutative operator
    have hback : ¬ Swaps rules op right left := fun hback => by
      have hconstant := hback.2.2.1
      simp [Option.isNone_iff_eq_none.1 hswap.2.2.2] at hconstant
    have hlawful : (Formula.arith op right left).Lawful := ⟨hw.symm, hr, hl⟩
    have hrun := run_combine hlawful hback
    refine .same hrun (.goOn h (.arith op right left) hlawful trivial (by simp)
      (.of_word rfl rfl hw.symm fun _ _ => ?_) fun h => .same hrun.symm (combine_way right h))
    simp only [Call.plain, eval]
    rw [op.apply_comm hswap.2.1, hw]
  · exact combine_way left h

/-! Unary operators and comparisons. -/

theorem unary_way {op : UnaryOp} {operand : Formula} (h : (Formula.unary op operand).Regular) :
    Way rules (unary op operand) (.unary op operand) := by
  have hword : operand.isArray = false := h.lawful
  unfold unary
  rw [if_neg (by simp [hword])]
  refine .read ?_
  split
  · next a _ ha =>
    refine .word (.of_word rfl rfl rfl fun _ _ => ?_)
    simp only [eval, truncate_of_lt (op.apply_lt _ _), eval_of_constant? ha]
  · split
    · next inner f _ _ =>
      split
      · next hop =>
        subst hop
        refine .part (by simp) (.of_word (h.operand (g := .unary inner f) (by simp)).lawful rfl rfl
          fun hplain hv => ?_)
        exact (inner.apply_apply ((hplain.part (g := f) (by simp)).eval_lt hv)).symm
      · exact .asIs _
    · exact .asIs _

theorem reflexive_holds (op : CompareOp) (width a : Nat) : op.holds width a a = op.reflexive := by
  cases op <;> simp [CompareOp.holds, CompareOp.reflexive]

theorem compare_swap {op : CompareOp} (hop : op = .eq ∨ op = .ne) (width a b : Nat) :
    op.holds width a b = op.holds width b a := by
  rcases hop with rfl | rfl
  · exact Bool.beq_comm
  · simp only [CompareOp.holds, bne, Bool.beq_comm]

/-- The identities of a comparison with a constant. -/
theorem compareConstant_way {op : CompareOp} {plain f : Formula} {c : Option Nat}
    (h : plain.Regular) (hplain : plain.isArray = false) (hbit : plain.width = 1)
    (hmem : f ∈ plain.children) (hword : f.isArray = false)
    (he : ∀ v a, c = some a → plain.eval v = (op.holds f.width (f.eval v) a).toNat) :
    Way rules (compareConstant op f c (intern plain)) plain := by
  have keep : ∀ a, f.width = 1 → c = some a →
      (∀ x, x = 0 ∨ x = 1 → (op.holds 1 x a).toNat = x) → Way rules (pure f) plain := by
    intro a hw hc hx
    refine .part (by simp [hmem]) (.of_word hword hplain (hw.trans hbit.symm) fun h hv => ?_)
    rw [he _ a hc, hw, hx _ ((h.operand hmem).eval_bit hv hw)]
  have negate : ∀ a, f.width = 1 → c = some a →
      (∀ x, x = 0 ∨ x = 1 → (op.holds 1 x a).toNat = Word.not 1 x) → Way rules (not f) plain := by
    intro a hw hc hx
    refine .goOn h (.unary .not f) hword trivial (by simp [hmem])
      (.of_word rfl hplain (hw.trans hbit.symm) fun h hv => ?_) unary_way
    rw [he _ a hc, hw, hx _ ((h.operand hmem).eval_bit hv hw)]
    show Word.not f.width _ = _
    rw [hw]
  have answer : ∀ a b, c = some a → (∀ x, op.holds f.width x a = b) → Way rules (flag b) plain :=
    fun a b hc hx => .flag hplain hbit fun _ _ => by rw [he _ a hc, hx]
  unfold compareConstant
  split
  · split
    · next hw => exact keep 1 hw rfl (by rintro x (rfl | rfl) <;> rfl)
    · exact .asIs _
  · split
    · next hw => exact keep 0 hw rfl (by rintro x (rfl | rfl) <;> rfl)
    · exact .asIs _
  · split
    · next hw => exact negate 0 hw rfl (by rintro x (rfl | rfl) <;> rfl)
    · exact .asIs _
  · split
    · next hw => exact negate 1 hw rfl (by rintro x (rfl | rfl) <;> rfl)
    · exact .asIs _
  · exact answer 0 false rfl fun x => by simp [CompareOp.holds]
  · exact answer 0 true rfl fun x => by simp [CompareOp.holds]
  · exact .asIs _

theorem compare_way {op : CompareOp} (h : (Formula.compare op left right).Regular) :
    Way rules (compare op left right) (.compare op left right) := by
  obtain ⟨hw, hl, hr⟩ := h.lawful
  unfold compare
  rw [if_neg (by simp [hw, hl, hr])]
  refine .read ?_
  split
  · next a b _ ha hb =>
    refine .flag rfl rfl fun _ _ => ?_
    simp only [eval, eval_of_constant? ha, eval_of_constant? hb]
  · split
    · unfold reduceCompare
      split
      · next heq =>
        subst heq
        exact .flag rfl rfl fun _ _ => by simp only [eval, reflexive_holds]
      · split
        · next hswap =>
          refine compareConstant_way h rfl rfl (by simp) hr fun v a ha => ?_
          simp only [eval, eval_of_constant? ha, compare_swap hswap.1, hw]
        · refine compareConstant_way h rfl rfl (by simp) hl fun v a ha => ?_
          simp only [eval, eval_of_constant? ha]
    · exact .asIs _

/-! Parts, extensions and concatenations. -/

theorem extract_extract {high low top base : Nat}
    (h : (Formula.extract high low (.extract top base f)).Lawful)
    (hf : (Formula.extract top base f).Lawful) :
    (Formula.extract (base + high) (base + low) f).Lawful ∧
      (Formula.extract (base + high) (base + low) f).Serves
        (.extract high low (.extract top base f)) := by
  obtain ⟨hle, hlt, -⟩ := h
  obtain ⟨hle', hlt', hword⟩ := hf
  simp only [Formula.width] at hlt
  refine ⟨⟨by omega, by omega, hword⟩, .of_word rfl rfl (by simp only [Formula.width]; omega)
    fun h hv => (slice_slice hle hlt (lt_of_lt_of_le ?_ (modulus_le_limit f.width))).symm⟩
  exact (h.part (g := f) (by simp)).eval_lt hv

theorem extract_concat_low {upper lower : Formula}
    (h : (Formula.extract high low (.concat upper lower)).Lawful)
    (hf : (Formula.concat upper lower).Lawful) (hlow : high < lower.width) :
    (Formula.extract high low lower).Lawful ∧
      (Formula.extract high low lower).Serves (.extract high low (.concat upper lower)) := by
  refine ⟨⟨h.1, hlow, hf.2.2⟩, .of_word rfl rfl rfl fun hplain hv => ?_⟩
  exact (slice_join_low _ h.1 hlow (by have := hf.1; omega)
    ((hplain.part (g := lower) (by simp)).eval_lt hv)).symm

theorem extract_concat_high {upper lower : Formula}
    (h : (Formula.extract high low (.concat upper lower)).Lawful)
    (hf : (Formula.concat upper lower).Lawful) (hhigh : lower.width ≤ low) :
    (Formula.extract (high - lower.width) (low - lower.width) upper).Lawful ∧
      (Formula.extract (high - lower.width) (low - lower.width) upper).Serves
        (.extract high low (.concat upper lower)) := by
  obtain ⟨hle, hlt, -⟩ := h
  obtain ⟨hsum, hword, -⟩ := hf
  simp only [Formula.width] at hlt
  refine ⟨⟨by omega, by omega, hword⟩, .of_word rfl rfl (by simp only [Formula.width]; omega)
    fun h hv => (slice_join_high _ hle hhigh (by omega) (by omega) ?_).symm⟩
  exact (h.part (g := lower) (by simp)).eval_lt hv

theorem extract_way (f : Formula) {high low : Nat} (h : (Formula.extract high low f).Regular) :
    Way rules (extract high low f) (.extract high low f) := by
  obtain ⟨hle, hlt, hword⟩ := h.lawful
  have hf := h.operand (g := f) (by simp)
  -- a part of an operand of `f` in the place of the part of `f`
  have part : ∀ (operand : Formula) (high' low' : Nat), sizeOf operand < sizeOf f →
      operand ∈ f.children → (Formula.extract high' low' operand).Lawful ∧
        (Formula.extract high' low' operand).Serves (.extract high low f) →
      Way rules (extract high' low' operand) (.extract high low f) := by
    rintro operand high' low' hsmaller hmem ⟨hl, hserves⟩
    exact .goOn h (.extract high' low' operand) hl trivial (by simp [hmem]) hserves
      (extract_way operand)
  unfold extract
  rw [if_neg (by simp [hword]; omega)]
  refine .fromOperand (fun a ha => ?_) ?_
  · -- a part of a constant: truncation to the width of the part
    refine .word (.of_word rfl rfl rfl fun _ _ => ?_)
    simp only [eval, eval_of_constant? ha]
  · split
    · next hall =>
      obtain ⟨rfl, hall⟩ := hall
      refine .part (by simp) (.of_word hword rfl (by simp only [Formula.width]; omega)
        fun hplain hv => ?_)
      have hvalue := (hplain.operand (g := f) (by simp)).eval_lt hv
      rw [← hall] at hvalue
      exact (slice_zero hvalue).symm
    · split
      · exact part _ _ _ (by simp) (by simp) (extract_extract h.lawful hf.lawful)
      · split
        · next hlow =>
          exact part _ _ _ (by simp) (by simp) (extract_concat_low h.lawful hf.lawful hlow)
        · split
          · next hhigh =>
            exact part _ _ _ (by simp; omega) (by simp)
              (extract_concat_high h.lawful hf.lawful hhigh)
          · exact .asIs _
      · next width operand _ =>
        obtain ⟨hge, hlim, hoperand⟩ := hf.lawful
        split
        · next hlow =>
          exact part _ _ _ (by simp) (by simp)
            ⟨⟨hle, hlow, hoperand⟩, .of_word rfl rfl rfl fun _ _ => rfl⟩
        · split
          · next hhigh =>
            -- the part lies in the zeros
            refine .word (.of_word rfl rfl rfl fun hplain hv => ?_)
            have hin : high < width := hlt
            exact (slice_eq_zero hhigh (by omega) (by omega)
              ((hplain.part (g := operand) (by simp)).eval_lt hv)).symm
          · exact .asIs _
      · split
        · next hlow =>
          obtain ⟨hge, hmax, hoperand⟩ := hf.lawful
          exact part _ _ _ (by simp) (by simp) ⟨⟨hle, hlow, hoperand⟩, .of_word rfl rfl rfl
            fun _ _ => (slice_signExtend _ hle hlow hge (by omega)).symm⟩
        · exact .asIs _
      · exact .asIs _

theorem zeroExtend_way (f : Formula) (h : (Formula.zeroExtend width f).Regular) :
    Way rules (zeroExtend width f) (.zeroExtend width f) := by
  obtain ⟨hge, hlim, hword⟩ := h.lawful
  unfold zeroExtend
  rw [if_neg (by simp [hword]; omega)]
  refine .fromOperand (fun a ha => ?_) ?_
  · refine .word (.of_word rfl rfl rfl fun hplain hv => ?_)
    have hvalue := hplain.eval_lt hv
    rw [eval, eval_of_constant? ha] at hvalue ⊢
    exact truncate_of_lt hvalue
  · split
    · next hsame => exact .part (by simp) (.of_word hword rfl hsame fun _ _ => rfl)
    · split
      · next middle operand _ =>
        obtain ⟨hge', -, hword'⟩ := (h.operand (g := .zeroExtend middle operand) (by simp)).lawful
        exact .goOn h (.zeroExtend width operand) ⟨le_trans hge' hge, hlim, hword'⟩ trivial
          (by simp) (.of_word rfl rfl rfl fun _ _ => rfl) (zeroExtend_way operand)
      · exact .asIs _

theorem concat_way {high low : Formula} (h : (Formula.concat high low).Regular) :
    Way rules (concat high low) (.concat high low) := by
  obtain ⟨hsum, hword₁, hword₂⟩ := h.lawful
  unfold concat
  rw [if_neg (by simp [hword₁, hword₂]; omega)]
  refine .read ?_
  split
  · next a b _ ha hb =>
    refine .word (.of_word rfl rfl rfl fun hplain hv => ?_)
    have hvalue := hplain.eval_lt hv
    rw [eval, eval_of_constant? ha, eval_of_constant? hb] at hvalue ⊢
    exact truncate_of_lt hvalue
  · split
    · split
      · next hzero =>
        refine .goOn h (.zeroExtend (high.width + low.width) low) ⟨by omega, hsum, hword₂⟩ trivial
          (by simp) (.of_word rfl rfl rfl fun {_ v} _ _ => ?_) (zeroExtend_way low)
        show low.eval v = join low.width (high.eval v) (low.eval v)
        rw [eval_of_constant? hzero, join_zero]
      · split
        · next top middle f middle' bottom f' _ _ =>
          split
          · next hadj =>
            -- adjacent parts of one formula
            obtain ⟨rfl, rfl⟩ := hadj
            have hhigh := h.operand (g := .extract top (middle' + 1) f) (by simp)
            have hlow := h.operand (g := .extract middle' bottom f) (by simp)
            obtain ⟨hle, hlt, hword⟩ := hhigh.lawful
            obtain ⟨hle', -, -⟩ := hlow.lawful
            simp only [Formula.width] at hsum
            refine .goOn h (.extract top bottom f) ⟨by omega, hlt, hword⟩ trivial (by simp)
              (.of_word rfl rfl ?_ fun {_ v} _ _ => ?_) (extract_way f)
            · simp only [Call.plain, Formula.width]
              omega
            · exact (join_slice_slice (f.eval v) hle' (by omega) (by omega)).symm
          · exact .asIs _
        · exact .asIs _
    · exact .asIs _

theorem signExtend_way (f : Formula) (h : (Formula.signExtend width f).Regular) :
    Way rules (signExtend width f) (.signExtend width f) := by
  obtain ⟨hge, hlim, hword⟩ := h.lawful
  unfold signExtend
  rw [if_neg (by simp [hword]; omega)]
  refine .fromOperand (fun a ha => ?_) ?_
  · refine .word (.of_word rfl rfl rfl fun _ _ => ?_)
    simp only [eval, truncate_of_lt (signExtend_lt _ _ _), eval_of_constant? ha]
  · split
    · next hsame =>
      refine .part (by simp) (.of_word hword rfl hsame fun hplain hv => ?_)
      rw [eval, ← hsame, signExtend_self,
        truncate_of_lt ((hplain.operand (g := f) (by simp)).eval_lt hv)]
    · split
      · next middle operand _ =>
        obtain ⟨hge', -, hword'⟩ := (h.operand (g := .signExtend middle operand) (by simp)).lawful
        exact .goOn h (.signExtend width operand) ⟨le_trans hge' hge, hlim, hword'⟩ trivial
          (by simp) (.of_word rfl rfl rfl fun _ _ => (signExtend_signExtend hge' _ _).symm)
          (signExtend_way operand)
      · exact .asIs _

/-! Choice and arrays. -/

theorem ite_way {cond onTrue onFalse : Formula} (h : (Formula.ite cond onTrue onFalse).Regular) :
    Way rules (ite cond onTrue onFalse) (.ite cond onTrue onFalse) := by
  obtain ⟨hbit, hword, hw, hkind⟩ := h.lawful
  -- the branch that is taken, whichever it is
  have first : (∀ v, onTrue.eval v = (Formula.ite cond onTrue onFalse).eval v) →
      Way rules (pure onTrue) (.ite cond onTrue onFalse) := fun he =>
    .part (by simp) ⟨rfl, fun hwords => hwords.1, rfl, fun {_ v} _ _ => he v⟩
  have second : (∀ v, onFalse.eval v = (Formula.ite cond onTrue onFalse).eval v) →
      Way rules (pure onFalse) (.ite cond onTrue onFalse) := fun he =>
    .part (by simp) ⟨hw.symm, fun hwords => hwords.2, rfl, fun {_ v} _ _ => he v⟩
  unfold ite
  rw [if_neg (by simp [hbit, hword, hw, hkind])]
  refine .read ?_
  dsimp only
  split
  · next c hc =>
    split
    · have hval := eval_of_constant? hc
      by_cases hzero : c = 0
      · rw [if_neg (by simp [hzero])]
        exact second fun v => by rw [eval, if_pos ((hval v).trans hzero)]
      · rw [if_pos hzero]
        exact first fun v => by rw [eval, if_neg (by rw [hval v]; exact hzero)]
    · exact .asIs _
  · split
    · split
      · next hsame => exact first fun v => by rw [eval, hsame, ite_self]
      · split
        · next hone =>
          -- one and zero by the condition: the condition itself
          obtain ⟨hwidth, h1, h0⟩ := hone
          refine .part (by simp) (.of_word hword rfl (hbit.trans hwidth.symm) fun hplain hv => ?_)
          rw [eval, eval_of_constant? h1, eval_of_constant? h0]
          rcases (hplain.operand (g := cond) (by simp)).eval_bit hv hbit with hv0 | hv1
          · rw [if_pos hv0, hv0]
          · rw [if_neg (by omega), hv1]
        · exact .asIs _
    · exact .asIs _

theorem run_select (h : (Formula.select array index).Lawful) :
    select array index rules = (if rules.identities then reduceSelect index array
      else intern (.select array index)) rules := by
  unfold select
  rw [if_neg (by simp [h.1, h.2.1, h.2.2])]
  rfl

theorem reduceSelect_way (hrules : rules.identities = true) (array : Formula)
    (h : (Formula.select array index).Regular) :
    Way rules (reduceSelect index array) (.select array index) := by
  obtain ⟨-, hword, hw⟩ := h.lawful
  unfold reduceSelect
  split
  · next inner place value =>
    have harray := h.operand (g := .store inner place value) (by simp)
    obtain ⟨hinner, -, -, hbyte, hvalue⟩ := harray.lawful
    split
    · next hsame =>
      subst hsame
      refine .part (by simp) (.of_word hvalue rfl hbyte fun _ _ => ?_)
      simp only [eval, readArray, if_true]
    · split
      · next a b ha hb =>
        split
        · next hne =>
          have hl : (Formula.select inner index).Lawful := ⟨hinner, hword, hw⟩
          have hrun : select inner index rules = reduceSelect index inner rules := by
            rw [run_select hl, if_pos hrules]
          refine .same hrun.symm (.goOn h (.select inner index) hl trivial (by simp)
            (.of_word rfl rfl rfl fun _ _ => ?_)
            fun h => .same hrun (reduceSelect_way hrules inner h))
          simp only [Call.plain, eval, readArray, eval_of_constant? ha,
            eval_of_constant? hb, hne, if_false]
        · exact .asIs _
      · exact .asIs _
  · exact .asIs _

theorem select_way (h : (Formula.select array index).Regular) :
    Way rules (select array index) (.select array index) := by
  refine .same (run_select h.lawful) ?_
  split
  · next hrules => exact reduceSelect_way hrules array h
  · exact .asIs _

theorem store_way {value : Formula} (h : (Formula.store array index value).Regular) :
    Way rules (store array index value) (.store array index value) := by
  obtain ⟨hkind, hword, hw, hbyte, hword'⟩ := h.lawful
  unfold store
  rw [if_neg (by simp [hkind, hword, hw, hbyte, hword'])]
  exact .asIs _

/-- What the constructor makes renders its operator. -/
theorem Way.renders {kept : Formula → Prop} (hk : Hereditary scope kept) {x : Build Formula}
    {plain : Formula} (way : Way rules x plain) (h : kept plain) :
    Renders scope kept rules x plain := by
  have hpart : ∀ {plain g}, kept plain → g ∈ plain.nearby → kept g := fun h =>
    of_mem_nearby hk.operand fun _ => hk.operand h
  induction way with
  | same hrun _ ih => exact (ih h).congr hrun
  | asIs plain => exact .of_answers (.intern plain) (.refl h)
  | @word plain value width serves =>
    have hwidth : width = plain.width := serves.width_eq
    refine (Makes.word value width).mono (fun hw => hwidth ▸ hw) fun f hf => ?_
    obtain ⟨hw, rfl⟩ := hf
    exact serves.renders hk (hk.constant hw (truncate_lt _ _)) h
  | part mem serves => exact .pure (serves.renders hk (hpart h mem) h)
  | call c lawful isWord mem serves _ ih =>
    have hin := hk.operator lawful c.children_ne fun g hg => hpart h (mem g hg)
    exact (ih hin).mono (fun hw => serves.width_eq ▸ hw)
      fun _ hg => hg.trans isWord (serves.renders hk hin h)
  | @merge plain operand c op value hc lawful mem serves _ _ ih =>
    have hwidth : operand.width = plain.width := serves.width_eq
    refine Makes.bind ((Makes.word value operand.width).mono (fun hw => hwidth ▸ hw) fun _ => id)
      fun merged hmerged => ?_
    obtain ⟨hw, rfl⟩ := hmerged
    subst hc
    have hin : kept (.arith op operand _) := hk.operator lawful (by simp)
      (by simpa using ⟨hpart h mem, hk.constant hw (truncate_lt _ _)⟩)
    exact (ih hin).mono (fun hw => serves.width_eq ▸ hw)
      fun _ hg => hg.trans trivial (serves.renders hk hin h)

end Build

namespace Call

theorem way (rules : Rules) (h : call.plain.Regular) : Build.Way rules call.run call.plain := by
  cases call with
  | arith => exact Build.arith_way h
  | compare => exact Build.compare_way h
  | unary => exact Build.unary_way h
  | extract _ _ f => exact Build.extract_way f h
  | concat => exact Build.concat_way h
  | zeroExtend _ f => exact Build.zeroExtend_way f h
  | signExtend _ f => exact Build.signExtend_way f h
  | ite => exact Build.ite_way h
  | select => exact Build.select_way h
  | store => exact Build.store_way h

/-- On operands that go together, every constructor renders its plain operator. -/
theorem renders {kept : Formula → Prop} (hk : Hereditary scope kept) (rules : Rules)
    (hl : call.plain.Lawful) (hc : ∀ f ∈ call.plain.children, kept f) :
    Build.Renders scope kept rules call.run call.plain := by
  have h : kept call.plain := hk.operator hl call.children_ne hc
  exact (way rules (.of_operand (fun h => (hk.formed h).lawful) hk.operand h)).renders hk h

theorem builds (rules : Rules) (h : call.plain.WellFormed scope) :
    ∃ f, Build.Answers rules call.run (.ok f) ∧ f.StandsFor scope call.plain ∧
      (call.plain.IsWord → f.isArray = false) := by
  have hk := (WellFormed.hereditary scope).memoryless call.plain.Memoryless
  obtain ⟨f, hf, hr⟩ := Build.Makes.answers (renders hk rules h.lawful
    fun f hf => ⟨h.children hf, fun hm => hm.operand hf⟩) h.width_range
  exact ⟨f, hf, hr.standsFor, hr.word⟩

/-- What a constructor reports of operands that do not go together. -/
def fault : Call → WidthFault
  | arith op left right => .operands op.smtName left.width right.width
  | compare op left right => .operands op.smtName left.width right.width
  | unary _ _ => .arrayOperand
  | extract high low operand => .slice high low operand.width
  | concat high low => .operands "concat" high.width low.width
  | zeroExtend width operand => .extension "zero_extend" operand.width width
  | signExtend width operand => .extension "sign_extend" operand.width width
  | ite cond onTrue onFalse => .choice cond.width onTrue.width onFalse.width
  | select array index => .selection index.width array.width
  | store array index value => .storing index.width value.width array.width

/-- On operands that do not go together, every constructor fails with its fault. -/
theorem run_of_not_lawful (h : ¬ call.plain.Lawful) :
    call.run = throw (.invalidWidth call.fault) := by
  -- every constructor begins with the check of its rule
  cases call <;> simp only [plain, Lawful] at h
  case extract | zeroExtend | signExtend =>
    simp only [run, plain, Formula.anew]
    first | unfold Build.extract | unfold Build.zeroExtend | unfold Build.signExtend
    exact if_pos (by grind)
  all_goals exact if_pos (by grind)

theorem fails (rules : Rules) (h : ¬ call.plain.Lawful) :
    Build.Answers rules call.run (.error (.invalidWidth call.fault)) := by
  rw [run_of_not_lawful h]
  exact .throw _

theorem refuses (rules : Rules) (h : ¬ call.plain.Lawful) :
    ∃ fault, Build.Answers rules call.run (.error (.invalidWidth fault)) := ⟨_, fails rules h⟩

end Call

end Concolic
