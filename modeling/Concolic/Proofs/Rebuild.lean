import Concolic.Formula.Simplify
import Concolic.Proofs.Constructors

/-
  Rebuilding a formula keeps its meaning.

  The walk rebuilds the operands first, so it applies a constructor to formulas
  that stand for the operands (`StandsFor`) and need not have their shape. The
  operator over them still stands for the operator over the operands, provided
  that it is lawful (`Over.rebuilt`); and where it is not, the constructor
  refuses it. The table of parts already rebuilt keeps the invariant that each
  entry may take the place of its key (`Sound`), whatever that is taken to mean and
  whatever is shown of constructions on the way (`simplify_shown`). A property that goes
  from an operator to its operands and back is kept as well (`Rebuilt`).
-/

namespace Concolic.Formula

variable {f plain : Formula} {scope : Scope} {rules : Rules} {kept : Formula → Prop}

/-! The walk. -/

/-- What is shown of constructions goes from a world to a later one: of answers that are so
where they are given, and of constructions in a row. -/
structure Staged {World : Type} (le : World → World → Prop)
    (shown : ∀ {α : Type}, World → Build α → (α → World → Prop) → Prop) : Prop where
  pure : ∀ {α : Type} {w} {a : α} {post : α → World → Prop}, post a w → shown w (pure a) post
  bind : ∀ {α β : Type} {w} {x : Build α} {k : α → Build β} {post : α → World → Prop}
    {post' : β → World → Prop}, shown w x post →
    (∀ a w', le w w' → post a w' → shown w' (k a) post') → shown w (x >>= k) post'

/-- The same constructor over operands that may take the place of the others. -/
inductive Over (fit : Formula → Formula → Prop) : Call → Call → Prop where
  | arith {op : ArithOp} {f g f' g' : Formula} (hf : fit f' f) (hg : fit g' g) :
      Over fit (.arith op f' g') (.arith op f g)
  | compare {op : CompareOp} {f g f' g' : Formula} (hf : fit f' f) (hg : fit g' g) :
      Over fit (.compare op f' g') (.compare op f g)
  | unary {op : UnaryOp} {f f' : Formula} (hf : fit f' f) :
      Over fit (.unary op f') (.unary op f)
  | extract {high low : Nat} {f f' : Formula} (hf : fit f' f) :
      Over fit (.extract high low f') (.extract high low f)
  | concat {f g f' g' : Formula} (hf : fit f' f) (hg : fit g' g) :
      Over fit (.concat f' g') (.concat f g)
  | zeroExtend {width : Nat} {f f' : Formula} (hf : fit f' f) :
      Over fit (.zeroExtend width f') (.zeroExtend width f)
  | signExtend {width : Nat} {f f' : Formula} (hf : fit f' f) :
      Over fit (.signExtend width f') (.signExtend width f)
  | ite {c f g c' f' g' : Formula} (hc : fit c' c) (hf : fit f' f) (hg : fit g' g) :
      Over fit (.ite c' f' g') (.ite c f g)
  | select {f g f' g' : Formula} (hf : fit f' f) (hg : fit g' g) :
      Over fit (.select f' g') (.select f g)
  | store {f g k f' g' k' : Formula} (hf : fit f' f) (hg : fit g' g) (hk : fit k' k) :
      Over fit (.store f' g' k') (.store f g k)

/-- Every entry of the table may take the place of its key, in the sense of
`fit`. -/
def Sound (fit : Formula → Formula → Prop) (memo : Memo Formula) : Prop :=
  ∀ f g, memo.find? f = some g → fit g f

section

variable {World : Type} {le : World → World → Prop}
  {shown : ∀ {α : Type}, World → Build α → (α → World → Prop) → Prop}

/-- A formula that the action returns may take the place of `plain`, and the table stays
sound. -/
def Rebuilds (shown : ∀ {α : Type}, World → Build α → (α → World → Prop) → Prop)
    (fit : World → Formula → Formula → Prop) (w : World) (x : StateT (Memo Formula) Build Formula)
    (plain : Formula) : Prop :=
  ∀ memo, Sound (fit w) memo → shown w (x memo) fun r w' => fit w' r.1 plain ∧ Sound (fit w') r.2

variable (S : Staged le @shown) {fit : World → Formula → Formula → Prop} {w : World}
  {x : StateT (Memo Formula) Build Formula}

include S

theorem staged_bind {σ α β : Type} {x : StateT σ Build α} {k : α → StateT σ Build β} {s : σ}
    {post : α × σ → World → Prop} {post' : β × σ → World → Prop} (hx : shown w (x s) post)
    (hk : ∀ r w', le w w' → post r w' → shown w' (k r.1 r.2) post') :
    shown w ((x >>= k) s) post' := S.bind hx hk

namespace Rebuilds

theorem bind {k : Formula → StateT (Memo Formula) Build Formula} (hx : Rebuilds @shown fit w x f)
    (hk : ∀ w' f', le w w' → fit w' f' f → Rebuilds @shown fit w' (k f') plain) :
    Rebuilds @shown fit w (x >>= k) plain :=
  fun memo hmemo => staged_bind S (hx memo hmemo) fun r w' hle hr => hk w' r.1 hle hr.1 r.2 hr.2

theorem lift (mono : ∀ ⦃w w' f g⦄, le w w' → fit w f g → fit w' f g) {x : Build Formula}
    (hx : shown w x fun f w' => fit w' f plain) : Rebuilds @shown fit w (liftM x) plain :=
  fun _ hmemo => S.bind hx fun _ _ hle hf =>
    S.pure ⟨hf, fun key entry hentry => mono hle (hmemo key entry hentry)⟩

theorem remember (hx : Rebuilds @shown fit w x f) :
    Rebuilds @shown fit w (Memo.remember f x) f := by
  intro memo hmemo
  have start : shown w ((get : StateT (Memo Formula) Build (Memo Formula)) memo)
      fun r w' => r = (memo, memo) ∧ w' = w := S.pure ⟨rfl, rfl⟩
  refine staged_bind S start fun r w' _ hr => ?_
  obtain ⟨rfl, rfl⟩ := hr
  cases hfind : memo.find? f with
  | some g => exact S.pure ⟨hmemo f g hfind, hmemo⟩
  | none =>
    refine staged_bind S (hx memo hmemo) fun r _ _ hr => S.pure ⟨hr.1, fun key entry hentry => ?_⟩
    rw [Memo.find?_insert] at hentry
    split at hentry
    · next hkey =>
      cases hentry
      rw [hkey]
      exact hr.1
    · exact hr.2 key entry hentry

end Rebuilds

/-- What is so of every constructor on rebuilt operands is so of simplification. -/
theorem simplify_shown (fit : World → Formula → Formula → Prop) (asked : World → Formula → Prop)
    (mono : ∀ ⦃w w' f g⦄, le w w' → fit w f g → fit w' f g)
    (later : ∀ {w w' f}, le w w' → asked w f → asked w' f)
    (leaf : ∀ {w f}, f.children = [] → asked w f → fit w f f)
    (operand : ∀ {w f g}, asked w f → g ∈ f.children → asked w g)
    (step : ∀ {w call call'}, Over (fit w) call' call → asked w call.plain →
      shown w call'.run fun f w' => fit w' f call.plain) (h : asked w f) :
    shown w f.simplify fun g w' => fit w' g f := by
  have next {w : World} {f g : Formula} {k : Formula → StateT (Memo Formula) Build Formula}
      (h : asked w f) (hin : g ∈ f.children)
      (hx : ∀ {w}, asked w g → Rebuilds @shown fit w (rebuild g) g)
      (hk : ∀ w' g', le w w' → asked w' f → fit w' g' g → Rebuilds @shown fit w' (k g') f) :
      Rebuilds @shown fit w (rebuild g >>= k) f :=
    .bind S (hx (operand h hin)) fun w' g' le => hk w' g' le (later le h)
  -- each operator: its operands first, then its constructor on what they became
  have walk : Rebuilds @shown fit w (rebuild f) f := by
    induction f generalizing w with
    | constant | var | memory => exact fun _ hmemo => S.pure ⟨leaf rfl h, hmemo⟩
    | unary _ _ hx =>
      refine .remember S (next h (by simp) hx fun w f _ h hf => ?_)
      exact .lift S mono (step (.unary hf) h)
    | extract _ _ _ hx =>
      refine .remember S (next h (by simp) hx fun w f _ h hf => ?_)
      exact .lift S mono (step (.extract hf) h)
    | zeroExtend _ _ hx =>
      refine .remember S (next h (by simp) hx fun w f _ h hf => ?_)
      exact .lift S mono (step (.zeroExtend hf) h)
    | signExtend _ _ hx =>
      refine .remember S (next h (by simp) hx fun w f _ h hf => ?_)
      exact .lift S mono (step (.signExtend hf) h)
    | arith _ _ _ hx hy =>
      refine .remember S (next h (by simp) hx fun w f _ h hf =>
        next h (by simp) hy fun w g le h hg => ?_)
      exact .lift S mono (step (.arith (mono le hf) hg) h)
    | compare _ _ _ hx hy =>
      refine .remember S (next h (by simp) hx fun w f _ h hf =>
        next h (by simp) hy fun w g le h hg => ?_)
      exact .lift S mono (step (.compare (mono le hf) hg) h)
    | concat _ _ hx hy =>
      refine .remember S (next h (by simp) hx fun w f _ h hf =>
        next h (by simp) hy fun w g le h hg => ?_)
      exact .lift S mono (step (.concat (mono le hf) hg) h)
    | select _ _ hx hy =>
      refine .remember S (next h (by simp) hx fun w f _ h hf =>
        next h (by simp) hy fun w g le h hg => ?_)
      exact .lift S mono (step (.select (mono le hf) hg) h)
    | ite _ _ _ hc hx hy =>
      refine .remember S (next h (by simp) hc fun w c _ h hc =>
        next h (by simp) hx fun w f le₁ h hf => next h (by simp) hy fun w g le₂ h hg => ?_)
      exact .lift S mono (step (.ite (mono le₂ (mono le₁ hc)) (mono le₂ hf) hg) h)
    | store _ _ _ hc hx hy =>
      refine .remember S (next h (by simp) hc fun w c _ h hc =>
        next h (by simp) hx fun w f le₁ h hf => next h (by simp) hy fun w g le₂ h hg => ?_)
      exact .lift S mono (step (.store (mono le₂ (mono le₁ hc)) (mono le₂ hf) hg) h)
  exact S.bind (walk {} fun f g hfind => by simp at hfind) fun _ _ _ hr => S.pure hr.1

end

/-- In all contexts alike, simplification is so of a formula if every constructor is. -/
theorem simplify_makes {sure : Prop} (fit : Formula → Formula → Prop) (asked : Formula → Prop)
    (leaf : ∀ {f}, f.children = [] → asked f → fit f f)
    (operand : ∀ {f g}, asked f → g ∈ f.children → asked g)
    (step : ∀ {call call'}, Over fit call' call → asked call.plain →
      Build.Makes rules sure call'.run (fit · call.plain)) (h : asked f) :
    Build.Makes rules sure f.simplify (fit · f) := by
  have staged : Staged (fun _ _ : Unit => True) fun _ x post =>
      Build.Makes rules sure x (post · ()) :=
    ⟨fun h => .pure h, fun hx hk => hx.bind fun a ha => hk a () trivial ha⟩
  exact simplify_shown staged (fun _ => fit) (fun _ => asked) (w := ()) (fun _ _ _ _ _ h => h)
    (fun _ h => h) leaf operand step h

/-- A formula that is rebuilt is kept, and stands for the original one if that is well
formed. -/
def Rebuilt (scope : Scope) (kept : Formula → Prop) (f plain : Formula) : Prop :=
  kept f ∧ (plain.WellFormed scope → f.StandsFor scope plain)

/-- The constructor over rebuilt operands, if it is lawful, stands for the one over the
original operands. -/
theorem Over.rebuilt {call call' : Call} (h : Over (Rebuilt scope kept) call' call) :
    (∀ f ∈ call'.plain.children, kept f) ∧ (call'.plain.Lawful → call.plain.WellFormed scope →
      call'.plain.StandsFor scope call.plain) := by
  cases h with
  | unary hf | extract hf | zeroExtend hf | signExtend hf =>
    refine ⟨by simpa using hf.1, fun hl hwf => ?_⟩
    have hf := hf.2 hwf.2
    refine .word ⟨hl, hf.wellFormed⟩ rfl ?_ (fun v hv => ?_) hf.memoryless
    · simp only [Call.plain, width, hf.width_eq]
    · simp only [Call.plain, eval, hf.width_eq, hf.eval_eq v hv]
  | arith hf hg | compare hf hg | concat hf hg =>
    refine ⟨by simpa using ⟨hf.1, hg.1⟩, fun hl hwf => ?_⟩
    have hf := hf.2 hwf.2.1
    have hg := hg.2 hwf.2.2
    refine .word ⟨hl, hf.wellFormed, hg.wellFormed⟩ rfl ?_ (fun v hv => ?_)
      fun hm => ⟨hf.memoryless hm.1, hg.memoryless hm.2⟩
    · simp only [Call.plain, width, hf.width_eq, hg.width_eq]
    · simp only [Call.plain, eval, hf.width_eq, hg.width_eq, hf.eval_eq v hv, hg.eval_eq v hv]
  | ite hc hf hg =>
    refine ⟨by simpa using ⟨hc.1, hf.1, hg.1⟩, fun hl hwf => ?_⟩
    have hc := hc.2 hwf.2.1
    have hf := hf.2 hwf.2.2.1
    have hg := hg.2 hwf.2.2.2
    refine .word ⟨hl, hc.wellFormed, hf.wellFormed, hg.wellFormed⟩ rfl hf.width_eq
      (fun v hv => ?_) fun hm => ⟨hc.memoryless hm.1, hf.memoryless hm.2.1, hg.memoryless hm.2.2⟩
    simp only [Call.plain, eval, hc.eval_eq v hv, hf.eval_eq v hv, hg.eval_eq v hv]
  | select hf hg =>
    refine ⟨by simpa using ⟨hf.1, hg.1⟩, fun hl hwf => ?_⟩
    have hf := hf.2 hwf.2.1
    have hg := hg.2 hwf.2.2
    refine .word ⟨hl, hf.wellFormed, hg.wellFormed⟩ rfl rfl (fun v hv => ?_) False.elim
    simp only [Call.plain, eval, hg.eval_eq v hv, hf.readArray_eq hwf.1.1 v hv]
  | store hf hg hk =>
    refine ⟨by simpa using ⟨hf.1, hg.1, hk.1⟩, fun hl hwf => ?_⟩
    have hf := hf.2 hwf.2.1
    have hg := hg.2 hwf.2.2.1
    have hk := hk.2 hwf.2.2.2
    refine ⟨⟨hl, hf.wellFormed, hg.wellFormed, hk.wellFormed⟩, hf.width_eq, fun _ _ => rfl,
      False.elim, id, fun _ v hv address => ?_⟩
    simp only [Call.plain, readArray, hg.eval_eq v hv, hk.eval_eq v hv,
      hf.readArray_eq hwf.1.1 v hv]

/-- Simplification keeps what goes from an operator to its operands and back, and what it
answers stands for the formula. -/
theorem simplify_rebuilt (hk : Hereditary scope kept) (rules : Rules) (h : kept f) :
    Build.Makes rules False f.simplify (Rebuilt scope kept · f) := by
  refine simplify_makes (Rebuilt scope kept) kept (fun _ hf => ⟨hf, .refl⟩) hk.operand
    (fun {call call'} hover _ => ?_) h
  obtain ⟨hc, hstands⟩ := hover.rebuilt
  by_cases hl : call'.plain.Lawful
  · -- well-formed operands make a well-formed operator, and lead to such formulas only
    have hk' := hk.and ((WellFormed.hereditary scope).memoryless call'.plain.Memoryless)
      (call'.plain.WellFormed scope)
    refine Build.Makes.mono (Call.renders hk' rules hl fun f hf =>
      ⟨hc f hf, fun hwf => ⟨hwf.children hf, fun hm => hm.operand hf⟩⟩) False.elim
      fun f hf => ⟨hf.kept.1, fun hplain => ?_⟩
    have hs := hstands hl hplain
    have hnew : f.StandsFor scope call'.plain := Renders.standsFor
      ⟨hf.kept.2 hs.wellFormed, hf.width_eq, hf.word, hf.array, hf.eval_eq⟩
    exact hnew.trans hs
  · obtain ⟨fault, hfault⟩ := Call.refuses rules hl
    exact ⟨_, hfault, nofun, False.elim⟩

theorem simplify_standsFor (h : f.WellFormed scope) (rules : Rules) :
    ∃ r, Build.Answers rules f.simplify r ∧ ∀ g, r = .ok g → g.StandsFor scope f := by
  obtain ⟨r, hr, hg, -⟩ := simplify_rebuilt (WellFormed.hereditary scope) rules h
  exact ⟨r, hr, fun g hgr => (hg g hgr).2 h⟩

end Concolic.Formula
