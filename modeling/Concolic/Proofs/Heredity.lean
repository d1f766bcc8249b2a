import Concolic.Proofs.Rebuild

/-
  What every construction keeps.

  A constructor answers an operand, an operand of an operand, a constant, or a
  lawful operator over such formulas. So a property that goes from an operator to
  its operands and back (`Hereditary`) holds of what it answers if it holds of the
  operands (`Call.keeps`), under any rules, and of a simplified formula if it holds
  of the formula (`simplify_keeps`).

  `Ensures rules x post` says that a construction has one result in every context,
  and that what it answers is so.
-/

namespace Concolic

namespace Build

/-- The construction has one result in every context, and what it answers is
so. -/
def Ensures {α : Type} (rules : Rules) (x : Build α) (post : α → Prop) : Prop :=
  Makes rules False x post

variable {α : Type} {rules : Rules} {post post' : α → Prop} {x : Build α}

theorem Makes.ensures {sure : Prop} (h : Makes rules sure x post) : Ensures rules x post :=
  h.mono False.elim fun _ => id

theorem Ensures.throw (e : Error) : Ensures rules (throw e : Build α) post := Makes.throw e id

theorem Ensures.mono (hx : Ensures rules x post) (h : ∀ a, post a → post' a) :
    Ensures rules x post' := Makes.mono hx id h

theorem constant_kept {scope : Scope} {kept : Formula → Prop} (hk : Formula.Hereditary scope kept)
    (value width : Nat) : Ensures rules (constant value width) kept := by
  refine (Makes.word value width).mono False.elim fun f hf => ?_
  obtain ⟨hw, rfl⟩ := hf
  exact hk.constant hw (Word.truncate_lt _ _)

end Build

variable {scope : Scope} {kept : Formula → Prop} (hk : Formula.Hereditary scope kept)
  (rules : Rules)

include hk

/-- Every constructor keeps what goes from an operator to its operands and back. It
refuses operands that do not go together. -/
theorem Call.keptAs {sure : Prop} {call : Call} (hc : ∀ f ∈ call.plain.children, kept f)
    (h : sure → call.plain.Lawful ∧ Formula.WordWidth call.plain.width) :
    Build.Makes rules sure call.run fun f =>
      call.plain.Lawful ∧ f.Renders scope kept call.plain := by
  by_cases hl : call.plain.Lawful
  · exact (call.renders hk rules hl hc).mono (fun hs => (h hs).2) fun f hf => ⟨hl, hf⟩
  · obtain ⟨fault, hfault⟩ := refuses rules hl
    exact ⟨_, hfault, nofun, fun hs => absurd (h hs).1 hl⟩

theorem Call.keeps {call : Call} (hc : ∀ f ∈ call.plain.children, kept f) :
    Build.Ensures rules call.run kept :=
  (call.keptAs hk rules hc False.elim).mono id fun _ hf => hf.2.kept

/-- Simplification keeps what goes from an operator to its operands and back. -/
theorem Formula.simplify_keeps {f : Formula} (h : kept f) : Build.Ensures rules f.simplify kept :=
  (simplify_rebuilt hk rules h).mono id fun _ hg => hg.1

end Concolic
