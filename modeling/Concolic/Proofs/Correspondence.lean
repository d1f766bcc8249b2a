import Concolic.Symbolic
import Concolic.Proofs.Variables

/-
  Constructions on corresponding words.

  Calls of one constructor on operands of one width are refused alike
  (`Corresponds.alike`), and where the operands have one value too, so have the
  operators that the calls stand for (`Corresponds.eval_eq`). So two constructions
  of one kind, each under rules of its own, match step by step (`Build.Matches`).
-/

namespace Concolic

open Formula Build Call

variable {c c' : Call} {P : Formula → Prop}

/-! Parts side by side. -/

theorem both_ite {α β : Type} (shown : α → β → Prop) {c : Prop} [Decidable c] {x x' : α} {y y' : β}
    (h₁ : c → shown x y) (h₂ : ¬ c → shown x' y') :
    shown (if c then x else x') (if c then y else y') := by
  by_cases h : c
  · simp only [h]; exact h₁ h
  · simp only [h]; exact h₂ h

/-- What is shown of two parts is shown of answers that are so, of errors that may arise, and
of parts in a row. -/
structure SideBySide {m : Type → Type} [Monad m] [MonadExceptOf Error m]
    (shown : ∀ {α β : Type}, m α → m β → (α → β → Prop) → Prop) : Prop where
  pure : ∀ {α β : Type} {a : α} {b : β} {post : α → β → Prop}, post a b →
    shown (pure a) (pure b) post
  fail : ∀ {α β : Type} {e : Error} {post : α → β → Prop}, e.isFatal = false →
    shown (throw e) (throw e) post
  bind : ∀ {α β γ δ : Type} {x : m α} {y : m β} {k : α → m γ} {k' : β → m δ}
    {post : α → β → Prop} {post' : γ → δ → Prop}, shown x y post →
    (∀ a b, post a b → shown (k a) (k' b) post') → shown (x >>= k) (y >>= k') post'

namespace SideBySide

variable {α β ι κ : Type} {post : α → β → Prop}

section

variable {m : Type → Type} [Monad m] [MonadExceptOf Error m]
  {shown : ∀ {α β : Type}, m α → m β → (α → β → Prop) → Prop} (C : SideBySide shown)

include C

theorem mapM [LawfulMonad m] {f : ι → m α} {g : ι → m β} (l : List ι)
    (h : ∀ i ∈ l, shown (f i) (g i) post) :
    shown (l.mapM f) (l.mapM g) (List.Forall₂ post) := by
  induction l with
  | nil => exact C.pure .nil
  | cons i l ih =>
    simp only [List.mapM_cons]
    refine C.bind (h i (by simp)) fun a b hab => ?_
    refine C.bind (ih fun j hj => h j (by simp [hj])) fun as bs habs => C.pure (.cons hab habs)

theorem foldlM {f : α → ι → m α} {g : β → κ → m β} {rel : ι → κ → Prop}
    (h : ∀ a b i j, post a b → rel i j → shown (f a i) (g b j) post) {l : List ι} {l' : List κ}
    (hl : List.Forall₂ rel l l') {a : α} {b : β} (hab : post a b) :
    shown (l.foldlM f a) (l'.foldlM g b) post := by
  induction hl generalizing a b with
  | nil => exact C.pure hab
  | @cons i j l l' hij _ ih => exact C.bind (h a b i j hab hij) fun a' b' hab' => ih hab'

end

theorem concatMany {shown : ∀ {α β : Type}, Build α → Build β → (α → β → Prop) → Prop}
    (C : SideBySide shown) {K : Formula → Formula → Prop}
    (hconcat : ∀ {f f' g g'}, K f f' → K g g' → shown (concat f g) (concat f' g') K)
    {fs gs : List Formula} (hl : List.Forall₂ K fs gs) :
    shown (concatMany fs) (concatMany gs) K := by
  cases hl with
  | nil => exact C.fail rfl
  | cons hf hl => exact C.foldlM (fun _ _ i j hab (hij : K i j) => hconcat hab hij) hl hf

end SideBySide

/-- Calls of one constructor on corresponding words. -/
inductive Call.Corresponds (K : Formula → Formula → Prop) : Call → Call → Prop where
  | arith {op : ArithOp} {f f' g g' : Formula} (hf : K f f') (hg : K g g') :
      Corresponds K (.arith op f g) (.arith op f' g')
  | compare {op : CompareOp} {f f' g g' : Formula} (hf : K f f') (hg : K g g') :
      Corresponds K (.compare op f g) (.compare op f' g')
  | unary {op : UnaryOp} {f f' : Formula} (hf : K f f') :
      Corresponds K (.unary op f) (.unary op f')
  | extract {high low : Nat} {f f' : Formula} (hf : K f f') :
      Corresponds K (.extract high low f) (.extract high low f')
  | concat {f f' g g' : Formula} (hf : K f f') (hg : K g g') :
      Corresponds K (.concat f g) (.concat f' g')
  | zeroExtend {width : Nat} {f f' : Formula} (hf : K f f') :
      Corresponds K (.zeroExtend width f) (.zeroExtend width f')
  | signExtend {width : Nat} {f f' : Formula} (hf : K f f') :
      Corresponds K (.signExtend width f) (.signExtend width f')
  | ite {f f' g g' h h' : Formula} (hf : K f f') (hg : K g g') (hh : K h h') :
      Corresponds K (.ite f g h) (.ite f' g' h')

namespace Call.Corresponds

variable {K K' : Formula → Formula → Prop} {c c' : Call}

theorem mono (h : Corresponds K c c') (hK : ∀ {f g}, K f g → K' f g) : Corresponds K' c c' := by
  cases h with
  | arith hf hg => exact .arith (hK hf) (hK hg)
  | compare hf hg => exact .compare (hK hf) (hK hg)
  | unary hf => exact .unary (hK hf)
  | extract hf => exact .extract (hK hf)
  | concat hf hg => exact .concat (hK hf) (hK hg)
  | zeroExtend hf => exact .zeroExtend (hK hf)
  | signExtend hf => exact .signExtend (hK hf)
  | ite hf hg hh => exact .ite (hK hf) (hK hg) (hK hh)

theorem diagonal (h : Corresponds (fun f g => f = g ∧ P f) c c') :
    c = c' ∧ Corresponds (fun f _ => P f) c c := by
  cases h with
  | arith hf hg => exact ⟨by rw [hf.1, hg.1], .arith hf.2 hg.2⟩
  | compare hf hg => exact ⟨by rw [hf.1, hg.1], .compare hf.2 hg.2⟩
  | unary hf => exact ⟨by rw [hf.1], .unary hf.2⟩
  | extract hf => exact ⟨by rw [hf.1], .extract hf.2⟩
  | concat hf hg => exact ⟨by rw [hf.1, hg.1], .concat hf.2 hg.2⟩
  | zeroExtend hf => exact ⟨by rw [hf.1], .zeroExtend hf.2⟩
  | signExtend hf => exact ⟨by rw [hf.1], .signExtend hf.2⟩
  | ite hf hg hh => exact ⟨by rw [hf.1, hg.1, hh.1], .ite hf.2 hg.2 hh.2⟩

theorem symm (h : Corresponds K c c') : Corresponds (fun f g => K g f) c' c := by
  cases h with
  | arith hf hg => exact .arith hf hg
  | compare hf hg => exact .compare hf hg
  | unary hf => exact .unary hf
  | extract hf => exact .extract hf
  | concat hf hg => exact .concat hf hg
  | zeroExtend hf => exact .zeroExtend hf
  | signExtend hf => exact .signExtend hf
  | ite hf hg hh => exact .ite hf hg hh

theorem eq (h : Corresponds Eq c c') : c = c' := by
  cases h <;> simp_all

theorem children (h : Corresponds (fun f _ => P f) c c') : ∀ f ∈ c.plain.children, P f := by
  cases h with
  | arith hf hg | compare hf hg | concat hf hg =>
    simpa using ⟨hf, hg⟩
  | unary hf | extract hf | zeroExtend hf | signExtend hf =>
    simpa using hf
  | ite hf hg hh => simpa using ⟨hf, hg, hh⟩

theorem isWord (h : Corresponds (fun f _ => f.isArray = false) c c') : c.plain.IsWord := by
  cases h with
  | ite _ hg hh => exact ⟨hg, hh⟩
  | _ => trivial

/-- Operands of one width, none of which is an array. -/
def Alike (f g : Formula) : Prop := f.width = g.width ∧ f.isArray = false ∧ g.isArray = false

/-- Calls on operands alike have one width, and one is lawful if the other is. -/
theorem alike (h : Corresponds Alike c c') :
    c.plain.width = c'.plain.width ∧ c.fault = c'.fault ∧ (c.plain.Lawful ↔ c'.plain.Lawful) := by
  cases h with
  | arith hf hg | compare hf hg | concat hf hg =>
    simp only [plain, width, fault, Lawful, hf.1, hg.1, hf.2.1, hf.2.2, hg.2.1, hg.2.2, and_self]
  | unary hf | extract hf | zeroExtend hf | signExtend hf =>
    simp only [plain, width, fault, Lawful, hf.1, hf.2.1, hf.2.2, and_self]
  | ite hf hg hh =>
    simp only [plain, width, fault, Lawful, hf.1, hg.1, hh.1, hf.2.1,
      hf.2.2, hg.2.1, hg.2.2, hh.2.1, hh.2.2, and_self]

/-- The operators have one value where their operands have. -/
theorem eval_eq {v v' : Valuation}
    (h : Corresponds (fun f g => f.width = g.width ∧ f.eval v = g.eval v') c c') :
    c.plain.eval v = c'.plain.eval v' := by
  cases h with
  | arith hf hg | compare hf hg | concat hf hg =>
    simp only [plain, eval, hf.1, hf.2, hg.1, hg.2]
  | unary hf | extract hf | zeroExtend hf | signExtend hf =>
    simp only [plain, eval, hf.1, hf.2]
  | ite hf hg hh => simp only [plain, eval, hf.2, hg.2, hh.2]

end Call.Corresponds

/-! Formulas of two scopes. -/

/-- Two words over the variables of one scope each, of one width, which have one
value in every pair of valuations that is looked at. -/
structure Formula.Alike (views : Valuation → Valuation → Prop) (scope scope' : Scope)
    (f g : Formula) : Prop where
  left : f.OverVariables scope
  right : g.OverVariables scope'
  width_eq : f.width = g.width
  eval_eq : ∀ v v', views v v' → f.eval v = g.eval v'

namespace Formula.Alike

variable {views views' : Valuation → Valuation → Prop} {scope scope' later later' : Scope}
  {f g : Formula}

theorem mono (h : Alike views scope scope' f g) (hv : ∀ v v', views' v v' → views v v') :
    Alike views' scope scope' f g :=
  ⟨h.left, h.right, h.width_eq, fun v v' hvv => h.eval_eq v v' (hv v v' hvv)⟩

theorem extend (h : Alike views scope scope' f g) (hl : later.Extends scope)
    (hr : later'.Extends scope') : Alike views later later' f g :=
  ⟨⟨h.left.wellFormed.mono hl, h.left.memoryless⟩, ⟨h.right.wellFormed.mono hr, h.right.memoryless⟩,
    h.width_eq, h.eval_eq⟩

theorem constant {value width : Nat} (h : WordWidth width) (hvalue : value < Word.modulus width) :
    Alike views scope scope' (.constant value width) (.constant value width) :=
  ⟨⟨⟨h, hvalue⟩, trivial⟩, ⟨⟨h, hvalue⟩, trivial⟩, rfl, fun _ _ _ => rfl⟩

end Formula.Alike

namespace Build

/-- Two constructions answer alike, or fail with one error. -/
def Matches {α β : Type} (rules rules' : Rules) (x : Build α) (y : Build β)
    (post : α → β → Prop) : Prop :=
  (∃ a b, Answers rules x (.ok a) ∧ Answers rules' y (.ok b) ∧ post a b) ∨
    ∃ e, Answers rules x (.error e) ∧ Answers rules' y (.error e)

namespace Matches

variable {α β γ δ : Type} {rules rules' : Rules} {x : Build α} {y : Build β}
  {post post' : α → β → Prop} {a : α} {b : β}

theorem pure (h : post a b) : Matches rules rules' (pure a) (pure b) post :=
  .inl ⟨a, b, .pure a, .pure b, h⟩

theorem fail (e : Error) : Matches rules rules' (throw e : Build α) (throw e : Build β) post :=
  .inr ⟨e, .throw e, .throw e⟩

section

variable (h : Matches rules rules' x y post)

include h

theorem of_answers (ha : Answers rules x (.ok a)) (hb : Answers rules' y (.ok b)) : post a b := by
  rcases h with ⟨a', b', ha', hb', hab⟩ | ⟨e, he, -⟩
  · obtain rfl := Except.ok.inj (ha'.unique ha)
    obtain rfl := Except.ok.inj (hb'.unique hb)
    exact hab
  · cases he.unique ha

theorem mono (hpost : ∀ a b, post a b → post' a b) : Matches rules rules' x y post' := by
  rcases h with ⟨a, b, ha, hb, hab⟩ | h
  · exact .inl ⟨a, b, ha, hb, hpost a b hab⟩
  · exact .inr h

theorem bind {k : α → Build γ} {k' : β → Build δ} {post' : γ → δ → Prop}
    (hk : ∀ a b, post a b → Matches rules rules' (k a) (k' b) post') :
    Matches rules rules' (x >>= k) (y >>= k') post' := by
  rcases h with ⟨a, b, ha, hb, hab⟩ | ⟨e, he, he'⟩
  · rcases hk a b hab with ⟨c, d, hc, hd, hcd⟩ | ⟨e, he, he'⟩
    · exact .inl ⟨c, d, ha.bind hc, hb.bind hd, hcd⟩
    · exact .inr ⟨e, ha.bind he, hb.bind he'⟩
  · exact .inr ⟨e, he.bind_error k, he'.bind_error k'⟩

end

theorem ite {c : Prop} [Decidable c] {x' : Build α} {y' : Build β}
    (h₁ : c → Matches rules rules' x y post) (h₂ : ¬ c → Matches rules rules' x' y' post) :
    Matches rules rules' (if c then x else x') (if c then y else y') post :=
  both_ite (Matches rules rules' · · post) h₁ h₂

theorem sideBySide : SideBySide fun {α β : Type} (x : Build α) (y : Build β) post =>
    Matches rules rules' x y post := ⟨pure, fun _ => fail _, fun h => h.bind⟩

section

variable {views : Valuation → Valuation → Prop} {scope scope' : Scope}
  (hviews : ∀ v v', views v v' → v.Fits scope ∧ v'.Fits scope')

theorem constant (value width : Nat) :
    Matches rules rules' (constant value width) (constant value width)
      fun f g => Alike views scope scope' f g ∧ f.width = width ∧ 0 < width := by
  by_cases h : WordWidth width
  · exact .inl ⟨_, _, .constant h value, .constant h value, .constant h (Word.truncate_lt _ _),
      rfl, h.1⟩
  · have hthrow : Build.constant value width = throw (.constantWidth width) := by
      exact if_neg h
    rw [hthrow]
    exact .fail _

include hviews

/-- One constructor on corresponding words: refused in both, or words alike if the
plain operators have one value. -/
theorem call_of_eval {views' : Valuation → Valuation → Prop}
    (h : Corresponds (Alike views' scope scope') c c')
    (heval : ∀ v v', views v v' → c.plain.eval v = c'.plain.eval v') :
    Matches rules rules' c.run c'.run
      fun r r' => Alike views scope scope' r r' ∧ r.width = c.plain.width := by
  have hc := (h.mono fun hf => hf.left).children
  have hc' := (h.symm.mono fun hf => hf.right).children
  obtain ⟨hwidth, hfault, hlawful⟩ := (h.mono fun hf => show Corresponds.Alike _ _ from
    ⟨hf.width_eq, hf.left.memoryless.not_array, hf.right.memoryless.not_array⟩).alike
  by_cases hl : c.plain.Lawful
  · obtain ⟨r, hr, hs⟩ := answers_overVariables rules hl hc
    obtain ⟨r', hr', hs'⟩ := answers_overVariables rules' (hlawful.1 hl) hc'
    refine .inl ⟨r, r', hr, hr', ⟨hs.kept, hs'.kept, ?_, ?_⟩, hs.width_eq⟩
    · rw [hs.width_eq, hs'.width_eq, hwidth]
    · intro v v' hvv
      obtain ⟨hv, hv'⟩ := hviews v v' hvv
      rw [hs.eval_eq v hv, hs'.eval_eq v' hv', heval v v' hvv]
  · refine .inr ⟨_, fails rules hl, ?_⟩
    rw [hfault]
    exact fails rules' (mt hlawful.2 hl)

theorem call_width (h : Corresponds (Alike views scope scope') c c') :
    Matches rules rules' c.run c'.run
      fun r r' => Alike views scope scope' r r' ∧ r.width = c.plain.width :=
  call_of_eval hviews h fun v v' hvv =>
    (h.mono fun hf => ⟨hf.width_eq, hf.eval_eq v v' hvv⟩).eval_eq

theorem call (h : Corresponds (Alike views scope scope') c c') :
    Matches rules rules' c.run c'.run (Alike views scope scope') :=
  (call_width hviews h).mono fun _ _ hr => hr.1

end

end Matches

end Build

/-! Constructions out of constructors that keep a relation. -/

section

variable {K : Formula → Formula → Prop} {rules rules' : Rules}
  (hcall : ∀ {c c' : Call}, Call.Corresponds K c c' → Build.Matches rules rules' c.run c'.run K)

include hcall

namespace Symbolic

theorem keepAround_matches (reg : Register) {root root' f g : Formula} (hroot : K root root')
    (hf : K f g) :
    Matches rules rules' (keepBelow reg root f >>= keepAbove reg root)
      (keepBelow reg root' g >>= keepAbove reg root') K := by
  refine Matches.bind (.ite (fun _ => ?_) fun _ => .pure hf) fun a b hab => ?_
  · exact (hcall (.extract hroot)).bind fun r r' hr => hcall (.concat hf hr)
  · refine .ite (fun _ => ?_) fun _ => .pure hab
    exact (hcall (.extract hroot)).bind fun r r' hr => hcall (.concat hr hab)

/-- The root of a register that is written, where what is kept of it corresponds. -/
theorem mergeRegister_matches {s s' : Symbolic} {machine machine' : Machine}
    {arch : Architecture} {reg : Register} {f g : Formula} (hf : K f g) (hwidth : f.width = g.width)
    (hkept : reg.isRoot ≠ true → reg.merge = .preserve → ∀ root,
      arch.register? reg.parent = some root →
      Matches rules rules' (s.registerFormula machine root) (s'.registerFormula machine' root) K) :
    Matches rules rules' (s.mergeRegister arch machine reg f)
      (s'.mergeRegister arch machine' reg g) K := by
  unfold mergeRegister
  rw [hwidth]
  refine .ite (fun _ => .fail _) fun _ => .ite (fun _ => .pure hf) fun hself => ?_
  cases hmerge : reg.merge with
  | zeroExtend => exact hcall (.zeroExtend hf)
  | preserve =>
    simp only [Architecture.register]
    cases hparent : arch.register? reg.parent with
    | none => exact .fail _
    | some root =>
      have hlook : Matches rules rules' (pure root) (pure root)
          fun a b => a = root ∧ b = root := .pure ⟨rfl, rfl⟩
      refine hlook.bind ?_
      rintro _ _ ⟨rfl, rfl⟩
      exact (hkept hself hmerge _ hparent).bind fun r r' hr => keepAround_matches hcall reg hr hf

end Symbolic

end

section

variable {α : Type} {rules : Rules} {x : Build α} {Q : α → Prop}

theorem Build.Ensures.matches (h : Ensures rules x Q) :
    Matches rules rules x x fun a b => a = b ∧ Q a := by
  obtain ⟨r, hr, hpost, -⟩ := h
  cases r with
  | ok a => exact .inl ⟨a, a, hr, hr, rfl, hpost a rfl⟩
  | error e => exact .inr ⟨e, hr, hr⟩

theorem Symbolic.mergeRegister_ensures
    (hcall : ∀ {c}, Corresponds (fun f _ => P f) c c → Ensures rules c.run P) {s : Symbolic}
    {machine : Machine} {arch : Architecture} {reg : Register} {f : Formula} (hf : P f)
    (hkept : ∀ root, arch.register? reg.parent = some root →
      Ensures rules (s.registerFormula machine root) P) :
    Ensures rules (s.mergeRegister arch machine reg f) P := by
  have hmatches : Matches rules rules (s.mergeRegister arch machine reg f)
      (s.mergeRegister arch machine reg f) fun f g => f = g ∧ P f := by
    refine mergeRegister_matches (fun hc => ?_) ⟨rfl, hf⟩ rfl fun _ _ root hroot =>
      (hkept root hroot).matches
    obtain ⟨rfl, hkeeps⟩ := hc.diagonal
    exact (hcall hkeeps).matches
  rcases hmatches with ⟨a, -, ha, -, -, hpost⟩ | ⟨e, he, -⟩
  · exact .of_answers ha hpost
  · exact ⟨_, he, nofun, False.elim⟩

end

end Concolic
