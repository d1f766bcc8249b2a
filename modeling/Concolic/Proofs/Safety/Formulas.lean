import Concolic.Proofs.Sharing

/-
  Formulas are built without a fatal error.

  Some errors stand for a request that no caller may make: a constant of a width that
  no word has, a difference of widths below zero, a number beyond the machine's integers
  (`Error.isFatal`). `Safe sure rules scope x post` says of a construction that it has
  one result in every context, that what it answers is so, that the error it fails with
  is no fatal one if `sure`, and that it enters nothing into the pool but well-formed
  formulas.

  Every constructor is safe on well-formed formulas (`Call.safe`): it fails only where
  they do not go together. What it enters on its way obeys what goes from an operator to
  its operands and back (`Call.stocks`).
-/

namespace Concolic

open Formula Build Call

variable {kept : Formula → Prop}

namespace Build

/-! What is entered into the pool. -/

/-- Whatever is in the pool after the construction was there before, or is kept. -/
def Stocks {α : Type} (kept : Formula → Prop) (rules : Rules) (x : Build α) : Prop :=
  ∀ ctx f, (after (x rules ctx)).pool.Has f → ctx.pool.Has f ∨ kept f

namespace Stocks

variable {α β : Type} {kept : Formula → Prop} {rules : Rules} {x : Build α}

theorem pure (a : α) : Stocks kept rules (pure a : Build α) := fun _ _ h => .inl h

theorem throw (e : Error) : Stocks kept rules (throw e : Build α) := fun _ _ h => .inl h

theorem intern {f : Formula} (h : kept f) : Stocks kept rules (intern f) := by
  intro ctx g hg
  change (ctx.pool.intern f).2.Has g at hg
  unfold Pool.intern at hg
  cases hplace : ctx.pool.place? f with
  | some i =>
    rw [hplace] at hg
    exact .inl hg
  | none =>
    rw [hplace] at hg
    obtain ⟨i, hi⟩ := hg
    rcases Pool.getElem?_insert_cases hi with ⟨-, rfl⟩ | hi
    · exact .inr h
    · exact .inl ⟨i, hi⟩

theorem bind {k : α → Build β} {post : α → Prop} (hx : Stocks kept rules x)
    (hpost : Ensures rules x post) (hk : ∀ a, post a → Stocks kept rules (k a)) :
    Stocks kept rules (x >>= k) := by
  obtain ⟨r, hr, hok, -⟩ := hpost
  intro ctx f hf
  have hfirst := hx ctx
  obtain ⟨pool, hrun⟩ := hr ctx
  rw [run_bind, hrun] at hf
  rw [hrun] at hfirst
  cases r with
  | error e => exact hfirst f hf
  | ok a =>
    rcases hk a (hok a rfl) _ f hf with h | h
    · exact hfirst f h
    · exact .inr h

end Stocks

end Build

/-- Whatever the pool is, with the formulas that are kept. -/
abbrev keeping (kept : Formula → Prop) : Regime :=
  ⟨fun _ => True, fun pool later => ∀ f, later.Has f → pool.Has f ∨ kept f, fun _ => kept⟩

theorem keeping_laws {scope : Scope} (hk : Hereditary scope kept) : (keeping kept).Laws := by
  have takes : ∀ {pool f}, kept f → (keeping kept).Takes pool f := fun {pool f} hf =>
    ⟨trivial, @Build.Stocks.intern kept ⟨false, false⟩ f hf { pool }, hf⟩
  exact {
    refl := fun _ _ h => .inl h
    trans := fun h h' f hf => (h' f hf).elim (h f) .inr
    mono := fun _ h => h
    lawful := fun _ h => (hk.formed h).lawful
    operand := fun _ => hk.operand
    constant := fun _ hw hv => takes (hk.constant hw hv)
    operator := fun _ hl hne hc => takes (hk.operator hl hne hc) }

/-- Every constructor enters only what is kept, if its operands are. -/
theorem Call.stocks {scope : Scope} (hk : Hereditary scope kept) (rules : Rules) (call : Call)
    (h : ∀ f ∈ call.plain.children, kept f) : Stocks kept rules call.run := by
  intro ctx
  have hgives : (keeping kept).Gives rules ctx.pool call.run := (keeping_laws hk).call call h
  exact (hgives trivial ctx rfl).2.1

/-! Safe constructions. -/

namespace Build

/-- The construction has one result in every context and enters only well-formed
formulas. What it answers is so, and it fails with no fatal error if `sure`. -/
def Safe {α : Type} (sure : Prop) (rules : Rules) (scope : Scope) (x : Build α)
    (post : α → Prop) : Prop :=
  Stocks (WellFormed scope) rules x ∧
    ∃ r, Answers rules x r ∧ (∀ a, r = .ok a → post a) ∧
      ∀ e, r = .error e → sure → e.isFatal = false

namespace Safe

variable {α β ι : Type} {sure : Prop} {rules : Rules} {scope : Scope} {x y : Build α}
  {post : α → Prop}

theorem ensures (h : Safe sure rules scope x post) : Ensures rules x post := by
  obtain ⟨-, r, hr, hpost, -⟩ := h
  exact ⟨r, hr, hpost, False.elim⟩

theorem pure {a : α} (h : post a) : Safe sure rules scope (pure a) post := by
  refine ⟨.pure a, .ok a, .pure a, fun b hb => ?_, fun e he => ?_⟩
  · cases hb
    exact h
  · cases he

theorem throw {e : Error} (h : sure → e.isFatal = false) :
    Safe sure rules scope (throw e : Build α) post := by
  refine ⟨.throw e, .error e, .throw e, fun a ha => ?_, fun e' he => ?_⟩
  · cases ha
  · cases he
    exact h

theorem mono {post' : α → Prop} (hx : Safe sure rules scope x post) (h : ∀ a, post a → post' a) :
    Safe sure rules scope x post' := by
  obtain ⟨hstocks, r, hr, hpost, hfails⟩ := hx
  exact ⟨hstocks, r, hr, fun a ha => h a (hpost a ha), hfails⟩

theorem bind {k : α → Build β} {post' : β → Prop} (hx : Safe sure rules scope x post)
    (hk : ∀ a, post a → Safe sure rules scope (k a) post') :
    Safe sure rules scope (x >>= k) post' := by
  have hstocks := hx.1.bind hx.ensures fun a ha => (hk a ha).1
  obtain ⟨-, r, hr, hpost, hfails⟩ := hx
  cases r with
  | ok a =>
    obtain ⟨-, r', hr', hpost', hfails'⟩ := hk a (hpost a rfl)
    exact ⟨hstocks, r', hr.bind hr', hpost', hfails'⟩
  | error e =>
    refine ⟨hstocks, .error e, hr.bind_error k, fun a ha => ?_, ?_⟩
    · cases ha
    · intro e' he
      cases he
      exact hfails e rfl

theorem ite {c : Prop} [Decidable c] (hx : c → Safe sure rules scope x post)
    (hy : ¬ c → Safe sure rules scope y post) :
    Safe sure rules scope (if c then x else y) post :=
  iteInduction (motive := (Safe sure rules scope · post)) hx hy

theorem composes :
    Composes fun {α : Type} (x : Build α) post => Safe sure rules scope x post := ⟨.pure, .bind⟩

theorem mapM {f : ι → Build α} (l : List ι) (h : ∀ i ∈ l, Safe sure rules scope (f i) post) :
    Safe sure rules scope (l.mapM f) fun as => as.length = l.length ∧ ∀ a ∈ as, post a :=
  composes.mapM l h

theorem foldlM {f : α → ι → Build α} (l : List ι)
    (h : ∀ i ∈ l, ∀ a, post a → Safe sure rules scope (f a i) post) {a : α} (ha : post a) :
    Safe sure rules scope (l.foldlM f a) post := composes.foldlM l h ha

theorem ofExcept {r : Except Error α} (h : ∀ a, r = .ok a → post a)
    (he : ∀ e, r = .error e → e.isFatal = false) : Safe sure rules scope (ofExcept r) post := by
  cases r with
  | ok a => exact .pure (h a rfl)
  | error e => exact .throw fun _ => he e rfl

theorem intern {f : Formula} (h : f.WellFormed scope) :
    Safe sure rules scope (intern f) (WellFormed scope) := by
  refine ⟨.intern h, .ok f, .intern f, fun g hg => ?_, fun e he => ?_⟩
  · cases hg
    exact h
  · cases he

end Safe

end Build

section

variable {sure : Prop} {rules : Rules} {scope : Scope} {value width : Nat}

/-- A constructor on well-formed formulas builds one, of the width of its plain operator,
or finds that they do not go together. -/
theorem Call.safe (call : Call) (h : ∀ f ∈ call.plain.children, f.WellFormed scope) :
    Safe sure rules scope call.run fun r =>
      r.WellFormed scope ∧ r.width = call.plain.width ∧ call.plain.Lawful := by
  have hk := WellFormed.hereditary scope
  refine ⟨call.stocks hk rules h, ?_⟩
  obtain ⟨r, hr, hpost, hok⟩ := call.keptAs hk rules h fun hl : call.plain.Lawful =>
    ⟨hl, (call.wellFormed_plain hl h).width_range⟩
  refine ⟨r, hr, fun f hf => ?_, fun e he _ => ?_⟩
  · obtain ⟨hl, hkept⟩ := hpost f hf
    exact ⟨hkept.kept, hkept.width_eq, hl⟩
  · subst he
    by_cases hl : call.plain.Lawful
    · obtain ⟨f, hf⟩ := hok hl
      cases hf
    · cases hr.unique (call.fails rules hl)
      cases call <;> rfl

namespace Build.Safe

variable {f g h : Formula}

theorem constant (hw : sure → WordWidth width) :
    Safe sure rules scope (constant value width) fun r =>
      r.WellFormed scope ∧ r.width = width := by
  refine .ite (fun hrange => ?_) fun hrange => .throw fun hs => absurd (hw hs) hrange
  refine ⟨.intern ⟨hrange, Word.truncate_lt _ _⟩, .ok _, .intern _, fun r hr => ?_, fun e he => ?_⟩
  · cases hr
    exact ⟨⟨hrange, Word.truncate_lt _ _⟩, rfl⟩
  · cases he

theorem word (hw : sure → WordWidth width) :
    Safe sure rules scope (Build.constant value width) (WellFormed scope) :=
  (constant hw).mono fun _ hr => hr.1

section

variable (hf : f.WellFormed scope)

include hf

/-- A binary operator, and what its success says of the widths. -/
theorem sized (op : ArithOp) (hg : g.WellFormed scope) :
    Safe sure rules scope (arith op f g) fun r =>
      r.WellFormed scope ∧ r.width = f.width ∧ f.width = g.width :=
  (safe (.arith op f g) (by simpa using ⟨hf, hg⟩)).mono fun _ hr => ⟨hr.1, hr.2.1, hr.2.2.1⟩

theorem arith (op : ArithOp) (hg : g.WellFormed scope) :
    Safe sure rules scope (arith op f g) (WellFormed scope) :=
  (sized hf op hg).mono fun _ hr => hr.1

theorem compare (op : CompareOp) (hg : g.WellFormed scope) :
    Safe sure rules scope (compare op f g) (WellFormed scope) :=
  (safe (.compare op f g) (by simpa using ⟨hf, hg⟩)).mono fun _ hr => hr.1

theorem extract (high low : Nat) : Safe sure rules scope (extract high low f) (WellFormed scope) :=
  (safe (.extract high low f) (by simpa using hf)).mono fun _ hr => hr.1

theorem zeroExtend (width : Nat) : Safe sure rules scope (zeroExtend width f) (WellFormed scope) :=
  (safe (.zeroExtend width f) (by simpa using hf)).mono fun _ hr => hr.1

theorem concat (hg : g.WellFormed scope) : Safe sure rules scope (concat f g) (WellFormed scope) :=
  (safe (.concat f g) (by simpa using ⟨hf, hg⟩)).mono fun _ hr => hr.1

theorem select (hg : g.WellFormed scope) : Safe sure rules scope (select f g) (WellFormed scope) :=
  (safe (.select f g) (by simpa using ⟨hf, hg⟩)).mono fun _ hr => hr.1

theorem store (hg : g.WellFormed scope) (hh : h.WellFormed scope) :
    Safe sure rules scope (store f g h) (WellFormed scope) :=
  (safe (.store f g h) (by simpa using ⟨hf, hg, hh⟩)).mono fun _ hr => hr.1

/-- In another width, of which the formula has the low bits at least. -/
theorem resize (width : Nat) : Safe sure rules scope (resize f width) (WellFormed scope) :=
  .ite (fun _ => zeroExtend hf width) fun _ => .ite (fun _ => extract hf _ _) fun _ => .pure hf

end

theorem concatMany {fs : List Formula} (h : ∀ f ∈ fs, f.WellFormed scope) :
    Safe sure rules scope (concatMany fs) fun r => r.WellFormed scope ∧ fs ≠ [] := by
  cases fs with
  | nil => exact .throw fun _ => rfl
  | cons first rest =>
    obtain ⟨hfirst, hrest⟩ := List.forall_mem_cons.1 h
    refine (foldlM _ (fun f hf r hr => ?_) hfirst).mono fun r hr => ⟨hr, by simp⟩
    exact concat hr (hrest f hf)

end Build.Safe

end

end Concolic
