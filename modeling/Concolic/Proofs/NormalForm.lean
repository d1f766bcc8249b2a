import Concolic.Proofs.Session

/-
  Simplified formulas.

  A formula is in normal form under rules if its top operator, built anew over its
  operands, gives the formula itself, and its operands are in normal form. A construction
  ends in a part of its operator, in a constant, or in another constructor (`Build.Way`), and
  what a constructor enters as it is it enters again when asked again. So a constructor on
  normal forms gives a normal form (`Call.normal`), everything built under fixed rules
  is in normal form, and simplification leaves a normal form alone.

  `Sorted` is said of a formula without a choice between arrays. Such a formula is
  simplified to one of its kind and width, without fail.
-/

namespace Concolic

namespace Formula

variable {f g plain : Formula} {rules : Rules}

theorem exists_plain (h : ¬ f.Lawful) : ∃ call : Call, call.plain = f := by
  cases f with
  | constant | var | memory => exact absurd trivial h
  | arith => exact ⟨.arith _ _ _, rfl⟩
  | compare => exact ⟨.compare _ _ _, rfl⟩
  | unary => exact ⟨.unary _ _, rfl⟩
  | extract => exact ⟨.extract _ _ _, rfl⟩
  | concat => exact ⟨.concat _ _, rfl⟩
  | zeroExtend => exact ⟨.zeroExtend _ _, rfl⟩
  | signExtend => exact ⟨.signExtend _ _, rfl⟩
  | ite => exact ⟨.ite _ _ _, rfl⟩
  | select => exact ⟨.select _ _, rfl⟩
  | store => exact ⟨.store _ _ _, rfl⟩

/-- Every operator of the formula gives itself when it is built anew. -/
inductive Normal (rules : Rules) : Formula → Prop where
  | intro {f : Formula} (operands : ∀ g ∈ f.children, Normal rules g)
      (same : Build.Answers rules f.anew (.ok f)) : Normal rules f

namespace Normal

theorem operand (h : Normal rules f) (hg : g ∈ f.children) : Normal rules g := by
  cases h with
  | intro operands _ => exact operands g hg

theorem same (h : Normal rules f) : Build.Answers rules f.anew (.ok f) := by
  cases h
  assumption

theorem leaf (h : f.children = []) : Normal rules f := by
  refine .intro (by simp [h]) ?_
  cases f with
  | constant | var | memory => exact .pure _
  | _ => cases h

/-- A constructor fails on operands that do not go together. -/
theorem lawful (h : Normal rules f) : f.Lawful := by
  by_contra hl
  obtain ⟨call, rfl⟩ := exists_plain hl
  cases h.same.unique (Call.fails rules hl)

/-- What answers its plain operator or a normal form, as the constructor of the operator
does, answers a normal form. -/
theorem of_answer (plain : Formula) {x : Build Formula} (hc : ∀ g ∈ plain.children, Normal rules g)
    (hanew : ∀ r, Build.Answers rules x r → Build.Answers rules plain.anew r)
    (hx : Build.Ensures rules x fun f => f = plain ∨ Normal rules f) :
    Build.Ensures rules x (Normal rules) := by
  obtain ⟨r, hr, hpost, -⟩ := hx
  refine ⟨r, hr, fun f hf => ?_, False.elim⟩
  subst hf
  rcases hpost f rfl with rfl | hnormal
  · exact .intro hc (hanew _ hr)
  · exact hnormal

end Normal

end Formula

open Formula (Normal children)

namespace Build

variable {rules : Rules}

theorem Ensures.of_run {α : Type} {x : Build α} {post : α → Prop} {a : α} {ctx ctx' : Context}
    (h : Ensures rules x post) (hrun : x rules ctx = .ok a ctx') : post a := by
  obtain ⟨r, hr, hpost, -⟩ := h
  obtain ⟨pool, hanswer⟩ := hr ctx
  rw [hanswer] at hrun
  exact hpost a (outcome_inv.1 a hrun).1

/-- On normal forms, a constructor answers its plain operator or a normal form. -/
theorem Way.settles {x : Build Formula} {plain : Formula} (way : Way rules x plain)
    (h : ∀ g ∈ plain.children, Normal rules g) :
    Ensures rules x fun f => f = plain ∨ Normal rules f := by
  have hpart : ∀ {plain g : Formula}, (∀ g ∈ plain.children, Normal rules g) → g ∈ plain.nearby →
    Normal rules g := fun h => Formula.of_mem_nearby .operand h
  induction way with
  | same hrun _ ih => exact Makes.congr hrun (ih h)
  | asIs plain => exact Makes.of_answers (.intern plain) (.inl rfl)
  | @word _ value width _ =>
    refine (Makes.word value width).ensures.mono fun f hf => ?_
    obtain ⟨-, rfl⟩ := hf
    exact .inr (.leaf rfl)
  | part mem _ => exact Makes.pure (.inr (hpart h mem))
  | call c _ _ mem _ _ ih =>
    have hc : ∀ g ∈ c.plain.children, Normal rules g := fun g hg => hpart h (mem g hg)
    exact (Normal.of_answer c.plain hc (fun _ => id) (ih hc)).mono fun _ => .inr
  | @merge _ operand c op value hc _ mem _ same _ ih =>
    refine (Makes.word _ _).ensures.bind fun merged hmerged => ?_
    obtain ⟨-, rfl⟩ := hmerged
    subst hc
    have hoperands := ih (by simpa using ⟨hpart h mem, .leaf rfl⟩)
    refine (Normal.of_answer _ (by simpa using ⟨hpart h mem, .leaf rfl⟩) (fun r hr => ?_)
      hoperands).mono fun _ => .inr
    unfold Answers at *
    rwa [same] at hr

end Build

/-- A constructor on normal forms gives a normal form. -/
theorem Call.normal {rules : Rules} {call : Call} (h : ∀ f ∈ call.plain.children, Normal rules f) :
    Build.Ensures rules call.run (Normal rules) := by
  by_cases hl : call.plain.Lawful
  · have hregular : call.plain.Regular :=
      .intro hl fun g hg => .of_operand Normal.lawful Normal.operand (h g hg)
    exact Normal.of_answer call.plain h (fun _ => id) ((call.way rules hregular).settles h)
  · exact ⟨_, fails rules hl, nofun, False.elim⟩

namespace Formula

variable {f g : Formula} {rules : Rules} {ctx ctx' : Context}

/-- Simplification gives normal forms, whatever it is asked of. -/
theorem simplify_normal : Build.Ensures rules f.simplify (Normal rules) := by
  refine simplify_makes (fun g _ => Normal rules g) (fun _ => True) (fun hf _ => .leaf hf)
    (fun _ _ => trivial) (fun hover _ => Call.normal ?_) trivial
  cases hover <;> simp_all [children]

theorem Normal.simplify (h : Normal rules f) : Build.Answers rules f.simplify (.ok f) := by
  have hwalk : Build.Makes rules True f.simplify (· = f) := by
    refine simplify_makes Eq (Normal rules) (fun _ _ => rfl) operand
      (fun {call call'} hover hcall => ?_) h
    obtain rfl : call' = call := by cases hover <;> simp_all
    exact Build.Makes.of_answers hcall.same rfl
  obtain ⟨g, hg, rfl⟩ := hwalk.answers trivial
  exact hg

/-- The formulas that constructors give out while the rules are in force, with all
their parts. -/
inductive BuiltUnder (rules : Rules) : Formula → Prop where
  | leaf {f : Formula} (h : f.children = []) : BuiltUnder rules f
  | answered {f : Formula} {ctx ctx' : Context} (call : Call)
      (operands : ∀ g ∈ call.plain.children, BuiltUnder rules g)
      (answer : call.run rules ctx = .ok f ctx') : BuiltUnder rules f
  | opened {f g : Formula} (whole : BuiltUnder rules f) (operand : g ∈ f.children) :
      BuiltUnder rules g

theorem BuiltUnder.normal (h : BuiltUnder rules f) : Normal rules f := by
  induction h with
  | leaf h => exact .leaf h
  | answered call _ answer ih => exact Build.Ensures.of_run (Call.normal ih) answer
  | opened _ operand ih => exact ih.operand operand

/-- **Normal forms are fixed points.** A formula whose parts were all built under rules is
left alone by simplification under these rules, and so is whatever simplification
gives. -/
theorem normal_forms_are_fixed (rules : Rules) (f : Formula) (ctx : Context) :
    (BuiltUnder rules f → ∃ ctx', f.simplify rules ctx = .ok f ctx') ∧
    ∀ g ctx', f.simplify rules ctx = .ok g ctx' →
      ∀ later, ∃ later', g.simplify rules later = .ok g later' := by
  have fixed : ∀ {g}, Normal rules g → ∀ ctx, ∃ ctx', g.simplify rules ctx = .ok g ctx' := by
    intro g hg ctx
    obtain ⟨pool, hrun⟩ := hg.simplify ctx
    exact ⟨{ ctx with pool }, hrun⟩
  exact ⟨fun h => fixed h.normal ctx,
    fun g ctx' hrun => fixed (Build.Ensures.of_run simplify_normal hrun)⟩

/-- A sum built with its constant on the left is left alone with the constant on the
right. -/
theorem normal_forms_are_fixed_sum :
    BuiltUnder ⟨true, true⟩ (arith .add (.var 0 8) (.constant 3 8)) ∧
    ∃ ctx', (arith .add (.var 0 8) (.constant 3 8)).simplify ⟨true, true⟩ {} =
      .ok (arith .add (.var 0 8) (.constant 3 8)) ctx' := by
  refine (and_iff_left_of_imp (normal_forms_are_fixed ⟨true, true⟩ _ {}).1).2
    (.answered (.arith .add (.constant 3 8) (.var 0 8)) ?_
      (Build.eq_ok_of_answer? (r := Build.add (.constant 3 8) (.var 0 8) ⟨true, true⟩ {})
        (by decide +kernel)))
  simpa using ⟨.leaf rfl, .leaf rfl⟩

/-! The kind of a formula. -/

/-- No choice in the formula is between arrays. -/
inductive Sorted : Formula → Prop where
  | intro {f : Formula} (top : f.isArray = true ∨ f.IsWord)
      (operands : ∀ g ∈ f.children, Sorted g) : Sorted f

/-- The formula is well formed, of the kind and the width of the other. -/
@[mk_iff]
structure Matches (scope : Scope) (f g : Formula) : Prop where
  wellFormed : f.WellFormed scope
  isArray_eq : f.isArray = g.isArray
  width_eq : f.width = g.width

variable {scope : Scope}

/-- A constructor over operands of the same kinds and widths is as lawful, and of the same
kind. -/
theorem Over.matches {call call' : Call} (h : Over (Matches scope) call' call) :
    (∀ f ∈ call'.plain.children, f.WellFormed scope) ∧
    (call.plain.Lawful → call'.plain.Lawful) ∧ (call.plain.IsWord → call'.plain.IsWord) ∧
    call'.plain.isArray = call.plain.isArray ∧ call'.plain.width = call.plain.width := by
  -- the rule of an operator reads only the kinds and the widths of its operands
  cases h <;> simp only [matches_iff] at * <;> refine ⟨?_, ?_, ?_, rfl, ?_⟩ <;>
    simp_all [Lawful, IsWord, width]

/-- Simplification answers, with a formula of the kind and the width. -/
theorem Sorted.simplify (h : f.Sorted) (hf : f.WellFormed scope) (rules : Rules) :
    ∃ g, Build.Answers rules f.simplify (.ok g) ∧ g.Matches scope f := by
  have hwalk : Build.Makes rules True f.simplify (Matches scope · f) := by
    refine simplify_makes (Matches scope) (fun f => f.WellFormed scope ∧ f.Sorted)
      (fun _ hf => ⟨hf.1, rfl, rfl⟩) (fun {f g} hf hg => ⟨hf.1.children hg, ?_⟩)
      (fun {call call'} hover hcall => ?_) ⟨hf, h⟩
    · cases hf.2 with
      | intro _ operands => exact operands g hg
    · obtain ⟨hc, hlawful, hword, hkind, hwidth⟩ := hover.matches
      have hl := hlawful hcall.1.lawful
      refine Build.Makes.mono (Call.renders (WellFormed.hereditary scope) rules hl hc)
        (fun _ => (Call.wellFormed_plain hl hc).width_range)
        fun f hf => ⟨hf.kept, ?_, hf.width_eq.trans hwidth⟩
      cases hcall.2 with
      | intro top _ =>
        rcases top with harray | htop
        · rw [hf.array (hkind.trans harray), hkind]
        · rw [hf.word (hword htop), htop.isArray]
  exact hwalk.answers trivial

/-- **Simplification keeps the kind.** Without a choice between arrays, simplification
answers under any rules, an array for an array and a word for a word, of the same
width. -/
theorem simplify_keeps_kind {given : List Formula} (h : Session ctx given) (hf : f ∈ given)
    (hs : f.Sorted) (rules : Rules) :
    ∃ g ctx', f.simplify rules ctx = .ok g ctx' ∧ g.isArray = f.isArray ∧ g.width = f.width := by
  obtain ⟨g, hg, hmatches⟩ := hs.simplify (h.wellFormed.2 f hf) rules
  obtain ⟨pool, hrun⟩ := hg ctx
  exact ⟨g, { ctx with pool }, hrun, hmatches.isArray_eq, hmatches.width_eq⟩

theorem simplify_keeps_kind_sum : ∃ ctx given, Session ctx given ∧
    arith .add (.var 0 8) (.constant 0 8) ∈ given ∧
    ∃ g ctx', (arith .add (.var 0 8) (.constant 0 8)).simplify ⟨true, true⟩ ctx = .ok g ctx' ∧
      g.isArray = false ∧ g.width = 8 := by
  obtain ⟨ctx, hsession, -⟩ := session_sum
  have hsorted : (arith .add (.var 0 8) (.constant 0 8)).Sorted := by
    refine .intro (.inr trivial) ?_
    simpa using ⟨.intro (.inr trivial) (by simp),
      .intro (.inr trivial) (by simp)⟩
  exact ⟨ctx, _, hsession, by simp,
    simplify_keeps_kind hsession (by simp) hsorted ⟨true, true⟩⟩

/-- A choice between arrays counts as a word, and becomes an array. Its complement, which
is built, cannot be simplified. -/
theorem array_choice_becomes_array : ∃ ctx given choice, Session ctx given ∧ choice ∈ given ∧
    choice.isArray = false ∧ unary .not choice ∈ given ∧
    Build.answer? (choice.simplify ⟨false, true⟩ ctx) = some (.memory 64) ∧
    Build.answer? ((unary .not choice).simplify ⟨false, true⟩ ctx) = none := by
  have one := Session.request (.memoryArray 64) ⟨false, false⟩ .start
    (show WordWidth 64 by decide) (f := .memory 64) (by decide +kernel)
  have two := one.request (.constant 1 1) ⟨false, false⟩ trivial
    (f := .constant 1 1) (by decide +kernel)
  have three := two.request (.call (.ite (.constant 1 1) (.memory 64) (.memory 64)))
    ⟨false, false⟩ (f := .ite (.constant 1 1) (.memory 64) (.memory 64))
    (by simp [Request.Permitted]) (by decide +kernel)
  have four := three.request (.call (.unary .not (.ite (.constant 1 1) (.memory 64) (.memory 64))))
    ⟨false, false⟩ (f := .unary .not (.ite (.constant 1 1) (.memory 64) (.memory 64)))
    (by simp [Request.Permitted]) (by decide +kernel)
  exact ⟨_, _, .ite (.constant 1 1) (.memory 64) (.memory 64), four, by simp, rfl, by simp,
    by decide +kernel, by decide +kernel⟩

end Formula

end Concolic
