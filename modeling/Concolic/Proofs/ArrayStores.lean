import Mathlib.Data.Nat.Digits.Lemmas
import Concolic.Proofs.Operations

/-
  Loads from the memory array after a store.

  A load finds the bytes that were stored, in those of its places that the store shares
  with it, and elsewhere what a load found before (`arrayLoad_of_arrayStore`). The indices
  are formulas, so what they share depends on the assignment, and both ranges may go
  around the end of the addresses. A store that fails changes no load.
-/

namespace Concolic

open Engine Build Word

open Formula (Formed Means)

theorem Architecture.modulus_addressWidth (arch : Architecture) :
    modulus arch.addressWidth = 2 ^ arch.addressWidth ∧
      16 ≤ modulus arch.addressWidth := by
  cases arch <;> decide

/-- A number that is put together from bytes has these bytes. -/
theorem byte_ofDigits {byte : Nat → Nat} {n m : Nat} (hbyte : ∀ i, byte i < 256) (hm : m < n) :
    (Nat.ofDigits 256 ((List.range n).map byte) >>> (8 * m)) % 256 = byte m := by
  have hdigits : ∀ digit ∈ (List.range n).map byte, digit < 256 := by
    intro digit hdigit
    obtain ⟨i, -, rfl⟩ := List.mem_map.1 hdigit
    exact hbyte i
  have hlength : m < ((List.range n).map byte).length := by simpa using hm
  rw [Nat.shiftRight_eq_div_pow, Nat.pow_mul, Nat.ofDigits_div_pow_eq_ofDigits_drop m (by decide)
    _ hdigits, List.drop_eq_getElem_cons hlength, Nat.ofDigits_cons]
  simp [Nat.mod_eq_of_lt (hbyte m)]

namespace Engine

variable {e : Engine} {index value place : Formula} {count : Nat}

/-- The index goes with the addresses of the engine. -/
structure Indexes (e : Engine) (index : Formula) : Prop where
  formed : index.Formed e.scope
  word : index.isArray = false
  width_eq : index.width = e.arch.addressWidth

theorem Indexes.means (h : e.Indexes index) :
    index.Means e.scope (Formed e.scope) e.arch.addressWidth index.eval :=
  ⟨h.formed, h.word, h.width_eq, fun _ _ => rfl⟩

/-- A load gives the number of the bytes that the array has from the index on. -/
theorem run_arrayLoad_reads {byte : Valuation → Nat → Nat}
    (harray : e.array.ArrayOf e.scope (Formed e.scope) e.arch.addressWidth byte)
    (hplace : e.Indexes place) (hpos : 1 ≤ count) (hmax : count ≤ 16) :
    ∃ f e', arrayLoad place count e = .ok f e' ∧ f.width = 8 * count ∧
      ∀ v, v.Fits e.scope → f.value v < 2 ^ (8 * count) ∧
        ∀ m < count, (f.value v >>> (8 * m)) % 256 =
          byte v (truncate e.arch.addressWidth (place.value v + m)) := by
  have hload : Denotes e.scope (Formed e.scope) e.modes.rules
      (loadBytes place count e.array) (8 * count) _ :=
    .loadBytes (Formed.hereditary e.scope) e.arch.addressWidth_range hplace.means harray hpos hmax
  obtain ⟨f, hf, hmeans⟩ := hload.answers trivial
  obtain ⟨pool, hrun⟩ := run_arrayLoad hf
  refine ⟨f, _, hrun, hmeans.width_eq, fun v hv => ⟨?_, fun m hm => ?_⟩⟩
  · have hlt := hmeans.kept.eval_lt hv
    rw [hmeans.width_eq, modulus_eq (by unfold limit; omega)] at hlt
    rwa [Formula.value_eq_eval]
  · have hbyte : ∀ i, byte v (truncate e.arch.addressWidth (place.eval v + i)) < 256 := by
      intro i
      rw [← harray.read_eq v hv]
      exact (harray.kept.eval_lt_and hv).2 _
    rw [Formula.value_eq_eval, Formula.value_eq_eval, hmeans.eval_eq v hv, byte_ofDigits hbyte hm]

end Engine

/-- In every engine that is in use, a word of 1 to 16 bytes can be stored into the memory
array at every index. A load of 1 to 16 bytes from then on gives a number of its width:
under every assignment and for every memory, each of its bytes is the byte of the word that
was stored in its place, up to the width of addresses, or if there was none, the byte that
a load gave before the store. A store that fails leaves the array as it is, and what every
load answers. -/
theorem arrayLoad_of_arrayStore {arch : Architecture} {modes : Modes} {e : Engine}
    {given : List Formula} (hturns : Engine.Turns False { arch, modes } [] e given)
    {index value : Formula} (hindex : index.Formed e.scope)
    (hvalue : value.Formed e.scope) :
    (e.Indexes index → value.isArray = false → ∀ k, 1 ≤ k → k ≤ 16 → value.width = 8 * k →
      ∃ e', Engine.arrayStore index value e = .ok () e' ∧
        ∀ place, e.Indexes place → ∀ n, 1 ≤ n → n ≤ 16 →
          ∃ f before e₁ e₂, Engine.arrayLoad place n e' = .ok f e₁ ∧
            Engine.arrayLoad place n e = .ok before e₂ ∧ f.width = 8 * n ∧
            ∀ v, v.Fits e.scope → f.value v < 2 ^ (8 * n) ∧ ∀ m < n,
              (∀ t < k, (place.value v + m) % 2 ^ arch.addressWidth =
                  (index.value v + t) % 2 ^ arch.addressWidth →
                (f.value v >>> (8 * m)) % 256 = (value.value v >>> (8 * t)) % 256) ∧
              ((∀ t < k, (place.value v + m) % 2 ^ arch.addressWidth ≠
                  (index.value v + t) % 2 ^ arch.addressWidth) →
                (f.value v >>> (8 * m)) % 256 = (before.value v >>> (8 * m)) % 256)) ∧
    ∀ error e', Engine.arrayStore index value e = .error error e' →
      (∃ pool, e' = (e.withPool pool).withArray e.array) ∧
      ∀ place n, place.Formed e.scope →
        Exec.answer (Engine.arrayLoad place n e') = Exec.answer (Engine.arrayLoad place n e) := by
  obtain ⟨hkept, hupholds⟩ := hturns.kept (.start False arch modes)
  obtain rfl : e.arch = arch := hupholds.arch
  have hindexed := hkept.grounded.indexed
  refine ⟨fun hplaced hword k hpos hmax hwidth => ?_, fun error e' hfail => ?_⟩
  · have harray : e.array.ArrayOf e.scope (Formed e.scope) e.arch.addressWidth
        fun v => e.array.readArray v :=
      ⟨hindexed.formed, hindexed.array, hindexed.width_eq, fun _ _ _ => rfl⟩
    have hstores : Makes e.modes.rules True (storeBytes index value (value.width / 8) e.array) _ :=
      storeBytes_reads (Formed.hereditary e.scope) e.arch.addressWidth_range
        hplaced.means ⟨hvalue, hword, hwidth, fun _ _ => rfl⟩ harray (by omega)
    obtain ⟨array, hstore, hstored⟩ := hstores.answers trivial
    obtain ⟨pool, hrun⟩ := run_arrayStore hstore
    refine ⟨_, hrun, fun place hplace n hn hn' => ?_⟩
    obtain ⟨f, e₁, hload, hfwidth, hf⟩ := run_arrayLoad_reads
      (e := (e.withPool pool).withArray array) hstored
      ⟨hplace.formed, hplace.word, hplace.width_eq⟩ hn hn'
    obtain ⟨before, e₂, hbefore, -, hg⟩ := run_arrayLoad_reads harray hplace hn hn'
    refine ⟨f, before, e₁, e₂, hload, hbefore, hfwidth, fun v hv => ⟨(hf v hv).1, fun m hm => ?_⟩⟩
    obtain ⟨hmodulus, hfits⟩ := e.arch.modulus_addressWidth
    have hcount : value.width / 8 = k := by omega
    rw [(hf v hv).2 m hm, (hg v hv).2 m hm, hcount, ← hmodulus]
    constructor
    · intro t ht hsame
      refine (congrArg _ hsame).trans ?_
      rw [Formula.value_eq_eval, Formula.value_eq_eval]
      refine (storedByte_of_place (by omega) ht).trans ?_
      rw [slice_byte]
      simp
    · intro hapart
      refine storedByte_of_ne fun t ht => ?_
      rw [← Formula.value_eq_eval]
      exact (hapart t ht).symm
  · obtain ⟨r, hr, -⟩ : Makes e.modes.rules False
        (storeBytes index value (value.width / 8) e.array) _ :=
      storeBytes_makes hindexed ⟨hindex, False.elim, False.elim⟩
        ⟨hvalue, False.elim, False.elim⟩ False.elim
    obtain ⟨pool, hrun⟩ := run_arrayStore hr
    rw [hrun] at hfail
    cases r with
    | ok array => cases hfail
    | error =>
      cases hfail
      refine ⟨⟨pool, rfl⟩, fun place n hplace => ?_⟩
      obtain ⟨r, hr, -⟩ : Makes e.modes.rules (False ∧ 1 ≤ n ∧ n ≤ 16)
          (loadBytes place n e.array) _ :=
        loadBytes_makes hindexed ⟨hplace, False.elim, False.elim⟩ False.elim n
      obtain ⟨pool₁, hload₁⟩ := run_arrayLoad (e := (e.withPool pool).withArray e.array) hr
      obtain ⟨pool₂, hload₂⟩ := run_arrayLoad hr
      rw [hload₁, hload₂]
      cases r <;> rfl

/-- Two bytes from the last address on: the second is at the first address. -/
theorem arrayLoad_of_arrayStore_around :
    ∃ e' f e₁, Engine.arrayStore (.constant 0xffffffffffffffff 64) (.constant 0x1122 16)
        (.new .x86_64) = .ok () e' ∧
      Engine.arrayLoad (.constant 0 64) 1 e' = .ok f e₁ ∧ ∀ v, f.value v % 256 = 0x11 := by
  have hformed : ∀ value width, Formula.WordWidth width ∧ value < modulus width →
      (Formula.constant value width).Formed ({} : Context).scope :=
    fun value width h => (Formed.hereditary _).constant h.1 h.2
  have hindex := hformed 0xffffffffffffffff 64 (by decide)
  have hvalue := hformed 0x1122 16 (by decide)
  obtain ⟨e', hrun, hloads⟩ := (arrayLoad_of_arrayStore
    (.none : Turns False (.new .x86_64) [] _ _) hindex hvalue).1
    ⟨hindex, rfl, rfl⟩ rfl 2 (by decide) (by decide) rfl
  obtain ⟨f, before, e₁, e₂, hload, -, -, hbytes⟩ :=
    hloads (.constant 0 64) ⟨hformed 0 64 (by decide), rfl, rfl⟩ 1 (by decide) (by decide)
  refine ⟨e', f, e₁, hrun, hload, fun v => ?_⟩
  have hv : v.Fits ({} : Context).scope := fun id width h => by simp [Context.scope] at h
  have hbyte := ((hbytes v hv).2 0 (by decide)).1 1 (by decide)
  simp only [Formula.value_eq_eval, Formula.eval] at hbyte ⊢
  exact hbyte (by decide)

end Concolic
