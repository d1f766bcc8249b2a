import Concolic.Proofs.Subregisters

/-
  Values within their widths.

  Everything in the pool of a context is well formed, also what constructors enter
  on their way and never give out (`Session.pool_wellFormed`), so it has a width of
  1 to 128 bits and a value of that width. The roots of a machine's registers are
  words of their widths as long as registers of one architecture are written.
-/

namespace Concolic

open Context Formula Build Word Architecture

variable {ctx : Context} {given : List Formula}

/-! Machines. -/

namespace Machine

/-- The machines that writes of an architecture's registers lead to, with any memory. -/
inductive WrittenOn (arch : Architecture) : Machine → Prop where
  | start : WrittenOn arch {}
  | register {m : Machine} (before : WrittenOn arch m) {reg : Register} (has : arch.Has reg)
      (value : Nat) : WrittenOn arch (m.setRegister reg value)
  | memory {m : Machine} (before : WrittenOn arch m) (memory : Std.ExtTreeMap Address UInt8) :
      WrittenOn arch { m with memory }

theorem WrittenOn.root_lt {arch : Architecture} {m : Machine} (h : WrittenOn arch m)
    {reg : Register} (hreg : arch.Has reg) : m.root reg.parent < modulus reg.parentBits := by
  induction h with
  | start => exact modulus_pos _
  | memory _ _ ih => exact ih
  | @register m _ written has value ih =>
    rw [root_setRegister]
    split
    · next hparent =>
      -- the register written and the one read lie in one root
      obtain ⟨root, hroot, -, hbits⟩ := has.root
      have hsame := (hreg.isRoot_and_bits (hparent ▸ hroot)).2
      rw [← hsame, hbits] at ih ⊢
      exact has.write_lt (hparent ▸ ih) value
    · exact ih

end Machine

/-- **Values within their widths.** Whatever is asked of a context, under whatever rules, with
memory arrays of 1 to 128 index bits: every formula in its pool that is no array has 1 to 128
bits, and over every memory a value below two to that number, and everything given out is in
the pool. Constants and values of variables are below two to their widths. So are the roots of
a machine in which registers of one architecture were written. -/
theorem values_within_widths {ctx : Context} {given : List Formula} (h : Session ctx given) :
    (∀ f, ctx.pool.Has f → f.isArray = false → 1 ≤ f.width ∧ f.width ≤ 128 ∧
      ∀ byte : Address → UInt8, f.value (ctx.valuation byte) < 2 ^ f.width) ∧
    (∀ f ∈ given, ctx.pool.Has f) ∧
    (∀ value width, ctx.pool.Has (.constant value width) → value < 2 ^ width) ∧
    (∀ (id : Nat) (entry : Variable), ctx.vars[id]? = some entry →
      entry.value < 2 ^ entry.width) ∧
    ∀ (arch : Architecture) (m : Machine), m.WrittenOn arch → ∀ reg, arch.Has reg →
      m.root reg.parent < 2 ^ reg.parentBits := by
  have hbounded := h.wellFormed.1
  refine ⟨fun f hf _ => ?_, h.inUse.shares.given, fun value width hf => ?_,
    fun id entry hentry => ?_, fun arch m hm reg hreg => ?_⟩
  · have hwf := h.pool_wellFormed f hf
    refine ⟨hwf.width_range.1, hwf.width_range.2, fun byte => ?_⟩
    rw [Formula.value_eq_eval, ← modulus_eq hwf.width_range.2]
    exact hwf.eval_lt (hbounded.fits byte)
  · obtain ⟨hw, hlt⟩ := h.pool_wellFormed _ hf
    exact modulus_eq hw.2 ▸ hlt
  · obtain ⟨hw, hlt⟩ := hbounded id entry hentry
    exact modulus_eq hw.2 ▸ hlt
  · have hlim : reg.parentBits ≤ limit := le_trans hreg.parentBits_le (by decide)
    exact modulus_eq hlim ▸ hm.root_lt hreg

/-- A variable of eight bits is made with the value 511, and put below its sum with one. -/
theorem values_within_widths_concat : ∃ (ctx : Context) (given : List Formula) (f : Formula),
    Session ctx given ∧ f ∈ given ∧ f.isArray = false ∧ f.width = 16 ∧
    ctx.evaluate f = 0xff ∧ ∀ byte, f.value (ctx.valuation byte) < 2 ^ 16 := by
  have one := Session.request (.newVariable 8 none 511) ⟨false, false⟩ .start trivial
    (f := .var 0 8) (by decide +kernel)
  have two := one.request (.constant 1 8) ⟨false, false⟩ trivial
    (f := .constant 1 8) (by decide +kernel)
  have three := two.request (.call (.arith .add (.var 0 8) (.constant 1 8))) ⟨true, true⟩
    (f := .arith .add (.var 0 8) (.constant 1 8)) (by simp [Request.Permitted]) (by decide +kernel)
  have four := three.request
    (.call (.concat (.arith .add (.var 0 8) (.constant 1 8)) (.var 0 8))) ⟨false, true⟩
    (f := .concat (.arith .add (.var 0 8) (.constant 1 8)) (.var 0 8))
    (by simp [Request.Permitted]) (by decide +kernel)
  obtain ⟨hpool, hgiven, -⟩ := values_within_widths four
  refine ⟨_, _, _, four, List.mem_cons_self, rfl, rfl, by decide +kernel, ?_⟩
  exact (hpool _ (hgiven _ List.mem_cons_self) rfl).2.2

end Concolic
