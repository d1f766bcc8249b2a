import Mathlib.Data.Set.Card
import Concolic.Proofs.Session

/-
  Equal formulas are one object.

  The place of a formula in the pool is the object that stands for it. In a pool
  that shares (`Pool.Shares`), no formula has two places and the operands of a
  formula have places before it. To enter a formula whose operands are there keeps
  this and moves nothing (`Shares.intern`).

  A regime says which pools a construction may lead through, and which formulas are
  there. Every constructor answers a formula that is there if it is asked about such
  (`Regime.Laws.call`). Under the regime of the pools that share (`sharing`) so does
  simplification (`simplify_gives`), and the pool of a context shares whatever is asked
  of it (`sharing_is_maximal`).
-/

namespace Concolic

variable {ctx ctx' : Context} {f array index : Formula} {pool : Pool} {rules : Rules}
  {given given' : List Formula}

/-! What is stored with a formula. -/

namespace Formula

/-- The width of a formula, from its top and the widths of its operands. -/
def Label.width : Label → List Nat → Nat
  | .constant _ width, _ | .var _ width, _ | .memory width, _ => width
  | .zeroExtend width, _ | .signExtend width, _ => width
  | .arith _, left :: _ => left
  | .unary _, operand :: _ => operand
  | .store, array :: _ => array
  | .concat, [high, low] => high + low
  | .ite, [_, onTrue, _] => onTrue
  | .extract high low, _ => high - low + 1
  | .compare _, _ => 1
  | .select, _ => 8
  | _, _ => 0

/-- Whether a variable occurs in a formula, from its top and its operands. -/
def Label.symbolic : Label → List Bool → Bool
  | .var _ _, _ => true
  | _, operands => operands.any id

theorem width_eq_label (f : Formula) : f.width = f.label.width (f.children.map width) := by
  cases f <;> rfl

theorem symbolic_eq_label (f : Formula) :
    f.symbolic = f.label.symbolic (f.children.map symbolic) := by
  cases f <;> simp [symbolic, label, Label.symbolic, Bool.or_assoc]

end Formula

/-! The pool. -/

namespace Pool

def Has (pool : Pool) (f : Formula) : Prop := ∃ i : Nat, pool.nodes[i]? = some f

/-- The places are numbered from zero on, no formula has two, each is listed under its
digest and obeys its rule, and the operands of a formula have places before it. -/
structure Shares (pool : Pool) : Prop where
  dense : ∀ i : Nat, (∃ f, pool.nodes[i]? = some f) ↔ i < pool.count
  unique : ∀ (i j : Nat) f, pool.nodes[i]? = some f → pool.nodes[j]? = some f → i = j
  listed : ∀ (i : Nat) f, pool.nodes[i]? = some f → i ∈ pool.bucket f
  lawful : ∀ (i : Nat) f, pool.nodes[i]? = some f → f.Lawful
  operands : ∀ (i : Nat) f, pool.nodes[i]? = some f →
    ∀ g ∈ f.children, ∃ j < i, pool.nodes[j]? = some g

/-- The second pool has what the first has, in the same places. -/
def Grows (pool later : Pool) : Prop :=
  ∀ (i : Nat) f, pool.nodes[i]? = some f → later.nodes[i]? = some f

theorem Grows.refl (pool : Pool) : pool.Grows pool := fun _ _ h => h

theorem Grows.trans {a b c : Pool} (h₁ : a.Grows b) (h₂ : b.Grows c) : a.Grows c :=
  fun i f h => h₂ i f (h₁ i f h)

theorem Has.grows {pool later : Pool} (h : pool.Has f) (hgrows : pool.Grows later) :
    later.Has f := by
  obtain ⟨i, hi⟩ := h
  exact ⟨i, hgrows i f hi⟩

variable {pool : Pool} {f g : Formula}

theorem Shares.operand (h : pool.Shares) (hf : pool.Has f) (hg : g ∈ f.children) : pool.Has g := by
  obtain ⟨i, hi⟩ := hf
  obtain ⟨j, -, hj⟩ := h.operands i f hi g hg
  exact ⟨j, hj⟩

theorem Shares.place?_eq_some (h : pool.Shares) {i : Nat} :
    pool.place? f = some i ↔ pool.nodes[i]? = some f := by
  have found : ∀ {j}, pool.place? f = some j → pool.nodes[j]? = some f := fun hj => by
    simpa using List.find?_some hj
  refine ⟨found, fun hi => ?_⟩
  have hsome : (pool.place? f).isSome := List.find?_isSome.2 ⟨i, h.listed i f hi, by simpa using hi⟩
  obtain ⟨j, hj⟩ := Option.isSome_iff_exists.1 hsome
  rw [hj, h.unique j i f (found hj) hi]

theorem Shares.ncard_eq (h : pool.Shares) : Set.ncard {f | pool.Has f} = pool.count := by
  refine Set.ncard_eq_of_bijective (fun i hi => ((h.dense i).2 hi).choose) ?_ ?_ ?_
  · rintro f ⟨i, hi⟩
    have hlt := (h.dense i).1 ⟨f, hi⟩
    exact ⟨i, hlt, Option.some.inj (((h.dense i).2 hlt).choose_spec.symm.trans hi)⟩
  · intro i hi
    exact ⟨i, ((h.dense i).2 hi).choose_spec⟩
  · intro i j hi hj heq
    refine h.unique i j _ ((h.dense i).2 hi).choose_spec ?_
    rw [heq]
    exact ((h.dense j).2 hj).choose_spec

theorem shares_empty : ({} : Pool).Shares where
  dense i := by simp [count]
  unique i j f h := by simp at h
  listed i f h := by simp at h
  lawful i f h := by simp at h
  operands i f h := by simp at h

theorem getElem?_insert (pool : Pool) (f : Formula) (i : Nat) :
    (pool.nodes.insert pool.count f)[i]? = if i = pool.count then some f else pool.nodes[i]? := by
  rw [Std.ExtTreeMap.getElem?_insert]
  by_cases hi : i = pool.count
  · simp [hi]
  · have hcmp : compare pool.count i ≠ .eq := mt Std.LawfulEqCmp.eq_of_compare (Ne.symm hi)
    rw [if_neg hcmp, if_neg hi]

theorem getElem?_insert_cases {i : Nat} (h : (pool.nodes.insert pool.count f)[i]? = some g) :
    (i = pool.count ∧ g = f) ∨ pool.nodes[i]? = some g := by
  rw [getElem?_insert] at h
  split at h
  · next hi => exact .inl ⟨hi, (Option.some.inj h).symm⟩
  · exact .inr h

theorem Shares.intern (h : pool.Shares) (hl : f.Lawful) (hf : ∀ g ∈ f.children, pool.Has g) :
    (pool.intern f).2.Shares ∧ pool.Grows (pool.intern f).2 ∧ (pool.intern f).2.Has f := by
  unfold Pool.intern
  cases hplace : pool.place? f with
  | some i => exact ⟨h, .refl pool, i, h.place?_eq_some.1 hplace⟩
  | none =>
    have hnew : ∀ i : Nat, pool.nodes[i]? ≠ some f := fun i hi => by
      rw [h.place?_eq_some.2 hi] at hplace
      cases hplace
    have hgrows : ∀ (i : Nat) g, pool.nodes[i]? = some g →
        (pool.nodes.insert pool.count f)[i]? = some g := by
      intro i g hi
      have hlt : i < pool.count := (h.dense i).1 ⟨g, hi⟩
      rw [getElem?_insert, if_neg (by omega), hi]
    have hfree : pool.count ∉ pool.nodes := fun hmem =>
      lt_irrefl _ ((h.dense _).1 ⟨_, Std.ExtTreeMap.getElem?_eq_some_getElem hmem⟩)
    refine ⟨⟨fun i => ?_, fun i j g hi hj => ?_, fun i g hi => ?_, fun i g hi => ?_,
      fun i g hi k hk => ?_⟩, hgrows, pool.count, by rw [getElem?_insert, if_pos rfl]⟩
    · have hsize : (pool.nodes.insert pool.count f).size = pool.count + 1 := by
        rw [Std.ExtTreeMap.size_insert, if_neg (by simpa using hfree)]
        rfl
      show _ ↔ i < (pool.nodes.insert pool.count f).size
      rw [hsize, getElem?_insert]
      by_cases hi : i = pool.count
      · simp [hi]
      · rw [if_neg hi, h.dense]
        omega
    · rcases getElem?_insert_cases hi with ⟨rfl, rfl⟩ | hold
      · rcases getElem?_insert_cases hj with ⟨rfl, -⟩ | hold'
        · rfl
        · exact absurd hold' (hnew j)
      · rcases getElem?_insert_cases hj with ⟨-, rfl⟩ | hold'
        · exact absurd hold (hnew i)
        · exact h.unique i j g hold hold'
    · -- the bucket of the new formula grows, and all others stay
      unfold bucket
      rw [Std.ExtTreeMap.getElem?_insert]
      split
      · next heq =>
        have hdigest : f.digest = g.digest := Std.LawfulEqCmp.eq_of_compare heq
        rcases getElem?_insert_cases hi with ⟨rfl, -⟩ | hi
        · simp
        · have hold := h.listed i g hi
          rw [bucket, ← hdigest] at hold
          simp [hold]
      · next hne =>
        rcases getElem?_insert_cases hi with ⟨-, rfl⟩ | hi
        · exact absurd Std.ReflCmp.compare_self hne
        · exact h.listed i g hi
    · rcases getElem?_insert_cases hi with ⟨-, rfl⟩ | hi
      · exact hl
      · exact h.lawful i g hi
    · rcases getElem?_insert_cases hi with ⟨rfl, rfl⟩ | hi
      · obtain ⟨j, hj⟩ := hf k hk
        exact ⟨j, (h.dense j).1 ⟨k, hj⟩, hgrows j k hj⟩
      · obtain ⟨j, hlt, hj⟩ := h.operands i g hi k hk
        exact ⟨j, hlt, hgrows j k hj⟩

end Pool

/-! Constructions. -/

/-- What is said of the pools that a construction leads through: which they may be
(`pools`), which comes after which (`le`), and which formulas there are at a pool
(`has`). -/
structure Regime where
  pools : Pool → Prop
  le : Pool → Pool → Prop
  has : Pool → Formula → Prop

namespace Regime

variable (R : Regime)

/-- The formula can be entered into the pool, and then is there. -/
def Takes (pool : Pool) (f : Formula) : Prop :=
  R.pools (pool.intern f).2 ∧ R.le pool (pool.intern f).2 ∧ R.has (pool.intern f).2 f

/-- The operands of what is there are there, and so are the constants in range and the
lawful operators over what is there, once they are entered. -/
structure Laws : Prop where
  refl : ∀ pool, R.le pool pool
  trans : ∀ {a b c}, R.le a b → R.le b c → R.le a c
  mono : ∀ {pool later f}, R.le pool later → R.has pool f → R.has later f
  lawful : ∀ {pool f}, R.pools pool → R.has pool f → f.Lawful
  operand : ∀ {pool f g}, R.pools pool → R.has pool f → g ∈ f.children → R.has pool g
  constant : ∀ {pool value width}, R.pools pool → Formula.WordWidth width →
    value < Word.modulus width → R.Takes pool (.constant value width)
  operator : ∀ {pool f}, R.pools pool → f.Lawful → f.children ≠ [] →
    (∀ g ∈ f.children, R.has pool g) → R.Takes pool f

/-- From a pool of the regime, the construction leads to a later one. What it answers is
so of the pool it leads to. -/
def Enters {α : Type} (rules : Rules) (pool : Pool) (x : Build α) (post : α → Pool → Prop) : Prop :=
  R.pools pool → ∀ ctx : Context, ctx.pool = pool →
    R.pools (Build.after (x rules ctx)).pool ∧ R.le pool (Build.after (x rules ctx)).pool ∧
      ∀ a, Build.answer? (x rules ctx) = some a → post a (Build.after (x rules ctx)).pool

/-- The construction answers a formula that is there. -/
abbrev Gives (rules : Rules) (pool : Pool) (x : Build Formula) : Prop :=
  R.Enters rules pool x fun f later => R.has later f

variable {R} {α β : Type} {rules : Rules} {pool : Pool} {x : Build α} {post : α → Pool → Prop}

namespace Enters

theorem of_pools (h : R.pools pool → R.Enters rules pool x post) : R.Enters rules pool x post :=
  fun hpool => h hpool hpool

theorem mono {post' : α → Pool → Prop} (h : R.Enters rules pool x post)
    (himp : ∀ a later, R.pools later → post a later → post' a later) :
    R.Enters rules pool x post' := by
  intro hpool ctx hctx
  obtain ⟨hlater, hle, hpost⟩ := h hpool ctx hctx
  exact ⟨hlater, hle, fun a ha => himp a _ hlater (hpost a ha)⟩

theorem ite {y : Build α} {c : Prop} [Decidable c]
    (hx : c → R.Enters rules pool x post) (hy : ¬ c → R.Enters rules pool y post) :
    R.Enters rules pool (if c then x else y) post :=
  iteInduction (motive := (R.Enters rules pool · post)) hx hy

end Enters

namespace Laws

variable (L : R.Laws) {f g : Formula}

include L

theorem pure {a : α} (h : post a pool) : R.Enters rules pool (pure a) post := by
  rintro hpool ctx rfl
  refine ⟨hpool, L.refl _, fun b hb => ?_⟩
  cases hb
  exact h

theorem throw (error : Error) : R.Enters rules pool (throw error : Build α) post := by
  rintro hpool ctx rfl
  exact ⟨hpool, L.refl _, fun a ha => by cases ha⟩

theorem bind {k : α → Build β} {post' : β → Pool → Prop} (hx : R.Enters rules pool x post)
    (hk : ∀ a later, R.le pool later → post a later → R.Enters rules later (k a) post') :
    R.Enters rules pool (x >>= k) post' := by
  intro hpool ctx hctx
  obtain ⟨hlater, hle, hpost⟩ := hx hpool ctx hctx
  rw [Build.run_bind]
  cases hrun : x rules ctx with
  | error error ctx' =>
    rw [hrun] at hlater hle
    exact ⟨hlater, hle, fun b hb => by cases hb⟩
  | ok a ctx' =>
    rw [hrun] at hlater hle hpost
    obtain ⟨hlast, hle', hpost'⟩ := hk a ctx'.pool hle (hpost a rfl) hlater ctx' rfl
    exact ⟨hlast, L.trans hle hle', hpost'⟩

omit L in
theorem intern (h : R.pools pool → R.Takes pool f) :
    R.Enters rules pool (Build.intern f) fun g later => R.has later g ∧ g = f := by
  rintro hpool ctx rfl
  obtain ⟨hlater, hle, hhas⟩ := h hpool
  refine ⟨hlater, hle, fun a ha => ?_⟩
  obtain rfl : a = f := (Option.some.inj ha).symm.trans (Pool.intern_fst ctx.pool f)
  exact ⟨hhas, rfl⟩

theorem plain (hl : f.Lawful) (hne : f.children ≠ []) (hc : ∀ g ∈ f.children, R.has pool g) :
    R.Gives rules pool (Build.intern f) :=
  (intern fun hpool => L.operator hpool hl hne hc).mono fun _ _ _ h => h.1

theorem word (value width : Nat) :
    R.Enters rules pool (Build.constant value width) fun f later =>
      R.has later f ∧ f = .constant (Word.truncate width value) width :=
  .ite (fun hw => intern fun hpool => L.constant hpool hw (Word.truncate_lt _ _)) fun _ => L.throw _

theorem fold (value width : Nat) : R.Gives rules pool (Build.constant value width) :=
  (L.word value width).mono fun _ _ _ h => h.1

/-- What a constructor does on formulas that are there leads to one that is there. -/
theorem way {x : Build Formula} {plain : Formula} (way : Build.Way rules x plain)
    (hl : plain.Lawful) (hne : plain.children ≠ []) (h : ∀ g ∈ plain.children, R.has pool g) :
    R.Gives rules pool x := by
  refine .of_pools fun hpool => ?_
  induction way generalizing pool with
  | same hrun _ ih =>
    have hx := ih hl hne h hpool
    unfold Gives Enters at *
    rwa [hrun]
  | asIs => exact L.plain hl hne h
  | word => exact L.fold _ _
  | part mem _ => exact L.pure (Formula.of_mem_nearby (L.operand hpool) h mem)
  | call c lawful _ mem _ _ ih =>
    exact ih lawful c.children_ne
      (fun g hg => Formula.of_mem_nearby (L.operand hpool) h (mem g hg)) hpool
  | merge hc lawful mem _ _ _ ih =>
    have hoperand := Formula.of_mem_nearby (L.operand hpool) h mem
    refine L.bind (L.word _ _) fun merged later hle hmerged => .of_pools fun hlater => ?_
    obtain ⟨hmerged, rfl⟩ := hmerged
    subst hc
    exact ih lawful (by simp) (by simpa using ⟨L.mono hle hoperand, hmerged⟩) hlater

/-- Asked about formulas that are there, every constructor answers one that is there. -/
theorem call (call : Call) (h : ∀ f ∈ call.plain.children, R.has pool f) :
    R.Gives rules pool call.run := by
  by_cases hl : call.plain.Lawful
  · refine .of_pools fun hpool => L.way (call.way rules (.intro hl fun g hg => ?_)) hl
      call.children_ne h
    exact .of_operand (L.lawful hpool) (L.operand hpool) (h g hg)
  · rw [call.run_of_not_lawful hl]
    exact L.throw _

end Laws

end Regime

/-- Pools that share, with what is in them. -/
abbrev sharing : Regime := ⟨Pool.Shares, Pool.Grows, Pool.Has⟩

theorem sharing_laws : sharing.Laws where
  refl := .refl
  trans h h' := h.trans h'
  mono hgrows h := h.grows hgrows
  lawful hpool hf := by
    obtain ⟨i, hi⟩ := hf
    exact hpool.lawful i _ hi
  operand hpool := hpool.operand
  constant hpool _ _ := hpool.intern trivial (by simp)
  operator hpool hl _ hc := hpool.intern hl hc

theorem sharing_leaf (hl : f.Lawful) (hf : f.children = []) :
    sharing.Gives rules pool (Build.intern f) :=
  .mono (Regime.Laws.intern fun hpool => hpool.intern hl (by simp [hf])) fun _ _ _ h => h.1

/-! Simplification. -/

theorem Formula.simplify_gives {R : Regime} (L : R.Laws) (h : R.has pool f) :
    R.Gives rules pool f.simplify := by
  -- a world is a pool of the regime
  have staged : Staged (fun w w' : { pool // R.pools pool } => R.le w.1 w'.1) fun w x post =>
      R.Enters rules w.1 x fun a later => ∀ hlater, post a ⟨later, hlater⟩ :=
    ⟨fun h => L.pure fun _ => h, fun hx hk => L.bind hx fun a later hle ha =>
      .of_pools fun hlater => hk a ⟨later, hlater⟩ hle (ha hlater)⟩
  refine .of_pools fun hpool => .mono (simplify_shown staged (w := ⟨pool, hpool⟩)
    (fun w g _ => R.has w.1 g) (fun w f => R.has w.1 f) (fun _ _ _ _ => L.mono) L.mono
    (fun _ h => h) (fun {w _ _} => L.operand w.2) (fun {w _ call} hover _ => ?_) h)
    fun _ _ hlater h => h hlater
  have hcall : ∀ f ∈ call.plain.children, R.has w.1 f := by cases hover <;> simp_all
  exact (L.call call hcall).mono fun _ _ _ h _ => h

/-! Contexts in use. -/

theorem Build.newVariable_gives (width : Nat) (nickname : Option String) (value : Nat) :
    sharing.Gives rules pool (newVariable width nickname value) := by
  refine .ite (fun _ => ?_) fun _ => sharing_laws.throw _
  rintro hshares ctx rfl
  have hintern : sharing.Gives rules ctx.pool (intern (.var ctx.vars.size width)) :=
    sharing_leaf trivial rfl
  exact hintern hshares (ctx.addVariable width nickname value) rfl

theorem Build.variableFormula_gives (id : Nat) : sharing.Gives rules pool (variableFormula id) := by
  rintro hshares ctx rfl
  rw [variableFormula_eq]
  cases ctx.findVariable id with
  | error error => exact ⟨hshares, .refl _, fun f hf => by cases hf⟩
  | ok entry =>
    have hintern : sharing.Gives rules ctx.pool (intern (.var id entry.width)) :=
      sharing_leaf trivial rfl
    exact hintern hshares ctx rfl

theorem Request.gives {request : Request} (hgiven : ∀ f ∈ given, pool.Has f)
    (about : request.About given) : sharing.Gives rules pool request.run := by
  cases request with
  | constant value width => exact sharing_laws.fold value width
  | newVariable width nickname value => exact Build.newVariable_gives width nickname value
  | variableFormula id => exact Build.variableFormula_gives id
  | memoryArray width => exact sharing_leaf trivial rfl
  | call call => exact sharing_laws.call call fun f hf => hgiven f (about f hf)
  | simplify f => exact Formula.simplify_gives sharing_laws (hgiven f about)

namespace Context

/-- The pool shares, and what was given out is in it. -/
structure Shares (ctx : Context) (given : List Formula) : Prop where
  pool : ctx.pool.Shares
  given : ∀ f ∈ given, ctx.pool.Has f

theorem pool_updateVariable {id : Nat} {change : Variable → Variable}
    (h : ctx.updateVariable id change = .ok ctx') : ctx'.pool = ctx.pool := by
  unfold updateVariable at h
  split at h
  · cases h
    rfl
  · cases h

/-- One use keeps all places, and gives out formulas that have one. -/
theorem Use.shares (use : Use ctx given ctx' given') (h : ctx.Shares given) :
    ctx'.Shares given' ∧ ctx.pool.Grows ctx'.pool := by
  have same : ctx'.pool = ctx.pool → given' = given →
      ctx'.Shares given' ∧ ctx.pool.Grows ctx'.pool := by
    rintro hpool rfl
    rw [hpool]
    exact ⟨⟨hpool ▸ h.pool, hpool ▸ h.given⟩, .refl _⟩
  cases use with
  | asked request rules about =>
    obtain ⟨hshares, hgrows, hpost⟩ := request.gives h.given about h.pool ctx rfl
    refine ⟨⟨hshares, fun f hf => ?_⟩, hgrows⟩
    rcases List.mem_append.1 hf with hf | hf
    · exact hpost f (Option.mem_toList.1 hf)
    · exact (h.given f hf).grows hgrows
  | opened whole operand =>
    refine ⟨⟨h.pool, fun f hf => ?_⟩, .refl _⟩
    rcases List.mem_cons.1 hf with rfl | hf
    · exact h.pool.operand (h.given _ whole) operand
    · exact h.given f hf
  | assigned id value answer => exact same (pool_updateVariable answer) rfl
  | commented id comment answer => exact same (pool_updateVariable answer) rfl

theorem InUse.shares (h : ctx.InUse given) : ctx.Shares given := by
  induction h with
  | start => exact ⟨Pool.shares_empty, fun f hf => by cases hf⟩
  | next _ use ih => exact (use.shares ih).1

/-- Uses, one after another. -/
inductive Uses : Context → List Formula → Context → List Formula → Prop where
  | none {ctx : Context} {given : List Formula} : Uses ctx given ctx given
  | next {ctx ctx' last : Context} {given given' given'' : List Formula}
      (before : Uses ctx given ctx' given') (use : Use ctx' given' last given'') :
      Uses ctx given last given''

theorem Uses.shares (uses : Uses ctx given ctx' given') (h : ctx.Shares given) :
    ctx'.Shares given' ∧ ctx.pool.Grows ctx'.pool := by
  induction uses with
  | none => exact ⟨h, .refl _⟩
  | next _ use ih =>
    obtain ⟨hshares, hgrows⟩ := ih h
    obtain ⟨hshares', hgrows'⟩ := use.shares hshares
    exact ⟨hshares', hgrows.trans hgrows'⟩

end Context

/-- Formulas of the pool are told apart by their top and the places of their operands. -/
theorem Pool.Shares.eq_iff_row (h : pool.Shares) {g : Formula} (hf : pool.Has f) (hg : pool.Has g) :
    f = g ↔ f.label = g.label ∧ f.children.map pool.place? = g.children.map pool.place? := by
  constructor
  · rintro rfl
    exact ⟨rfl, rfl⟩
  · rintro ⟨hlabel, hplaces⟩
    refine Formula.eq_of_label_children hlabel ?_
    -- the operands are what is in their places
    have hback : ∀ k : Formula, pool.Has k → (∀ a ∈ k.children,
        ((pool.place? a).bind fun i => pool.nodes[i]?) = some a) := by
      intro k hk a ha
      obtain ⟨i, hi⟩ := h.operand hk ha
      rw [h.place?_eq_some.2 hi, Option.bind_some, hi]
    have hsome := congrArg (List.map fun place => place.bind fun i : Nat => pool.nodes[i]?) hplaces
    simp only [List.map_map, Function.comp_def] at hsome
    rw [List.map_congr_left (hback f hf), List.map_congr_left (hback g hg)] at hsome
    exact List.map_injective_iff.2 (Option.some_injective _) hsome

/-- **Sharing is maximal.** Whatever was asked of a context, under whatever rules and with
errors among the answers: every formula that it gave out is in one place of the pool, which
is where it is found. Two formulas of the pool are in the same place exactly if they are
equal, and exactly if they have the same top over operands in the same places. The operands
of a formula are in places before it, and the width and the mark that are stored with it are
those of its top over its operands. The pool counts the different formulas in it, and
whatever is asked later, all of them stay in their places. -/
theorem sharing_is_maximal {ctx : Context} {given : List Formula} (h : ctx.InUse given) :
    (∀ f ∈ given, ∃ i, ctx.pool.place? f = some i) ∧
    (∀ (i : Nat) f, ctx.pool.place? f = some i ↔ ctx.pool.nodes[i]? = some f) ∧
    (∀ (i j : Nat) f g, ctx.pool.nodes[i]? = some f → ctx.pool.nodes[j]? = some g →
      (i = j ↔ f = g) ∧ (i = j ↔ f.label = g.label ∧
        f.children.map ctx.pool.place? = g.children.map ctx.pool.place?)) ∧
    (∀ (i : Nat) f, ctx.pool.nodes[i]? = some f →
      (∀ g ∈ f.children, ∃ j < i, ctx.pool.nodes[j]? = some g) ∧
      f.width = f.label.width (f.children.map Formula.width) ∧
      f.symbolic = f.label.symbolic (f.children.map Formula.symbolic)) ∧
    ctx.pool.count = Set.ncard {f | ctx.pool.Has f} ∧
    ∀ ctx' given', ctx.Uses given ctx' given' → ∀ (i : Nat) f, ctx.pool.nodes[i]? = some f →
      ctx'.pool.nodes[i]? = some f ∧ ctx'.pool.place? f = some i := by
  obtain ⟨hpool, hgiven⟩ := h.shares
  have same : ∀ (i j : Nat) f g, ctx.pool.nodes[i]? = some f → ctx.pool.nodes[j]? = some g →
      (i = j ↔ f = g) := by
    intro i j f g hi hj
    constructor
    · rintro rfl
      exact Option.some.inj (hi.symm.trans hj)
    · rintro rfl
      exact hpool.unique i j f hi hj
  refine ⟨fun f hf => ?_, fun i f => hpool.place?_eq_some,
    fun i j f g hi hj => ⟨same i j f g hi hj, ?_⟩,
    fun i f hi => ⟨hpool.operands i f hi, f.width_eq_label, f.symbolic_eq_label⟩, ?_,
    fun ctx' given' uses i f hi => ?_⟩
  · obtain ⟨i, hi⟩ := hgiven f hf
    exact ⟨i, hpool.place?_eq_some.2 hi⟩
  · rw [same i j f g hi hj]
    exact hpool.eq_iff_row ⟨i, hi⟩ ⟨j, hj⟩
  · exact hpool.ncard_eq.symm
  · obtain ⟨hshares, hgrows⟩ := uses.shares h.shares
    exact ⟨hgrows i f hi, hshares.pool.place?_eq_some.2 (hgrows i f hi)⟩

/-- A variable is added to itself twice, once under all rules and once under none: the two
sums are in one place, after that of the variable. -/
theorem sharing_is_maximal_sum : ∃ (ctx : Context) (given : List Formula), ctx.InUse given ∧
    Formula.arith .add (.var 0 8) (.var 0 8) ∈ given ∧
    (∃ i, ctx.pool.place? (.arith .add (.var 0 8) (.var 0 8)) = some i) ∧
    ctx.pool.count = 2 ∧ Set.ncard {f | ctx.pool.Has f} = 2 := by
  have one := Context.InUse.start.request (.newVariable 8 none 7) ⟨false, false⟩ trivial
    (f := .var 0 8) (by decide +kernel)
  have two := one.request (.call (.arith .add (.var 0 8) (.var 0 8))) ⟨true, true⟩
    (f := .arith .add (.var 0 8) (.var 0 8)) (by simp [Request.About]) (by decide +kernel)
  have three := two.request (.call (.arith .add (.var 0 8) (.var 0 8))) ⟨false, false⟩
    (f := .arith .add (.var 0 8) (.var 0 8)) (by simp [Request.About]) (by decide +kernel)
  obtain ⟨hplaces, -, -, -, hcount, -⟩ := sharing_is_maximal three
  refine ⟨_, _, three, by simp, hplaces _ (by simp), ?_, hcount.symm.trans ?_⟩ <;> decide +kernel

end Concolic
