import Mathlib.Data.Nat.Digits.Defs
import Concolic.Proofs.Variables

/-
  What formulas mean under every assignment.

  `Means scope kept f width value` says of a formula that it is a word with a value under
  every assignment, and that it has a property that goes from operators to operands and
  back. `Denotes rules x` says of a construction that it answers with such a formula; there
  is a lemma for each constructor, and one for words that are put together from bytes
  (`Denotes.number`).
-/

namespace Concolic

open Formula Word Build

variable {ι : Type} {l : List ι} {byte : ι → Valuation → Nat}

/-- The formula is kept, and it is a word whose value the function gives. -/
structure Formula.Means (scope : Scope) (kept : Formula → Prop) (f : Formula) (width : Nat)
    (value : Valuation → Nat) : Prop where
  kept : kept f
  word : f.isArray = false
  width_eq : f.width = width
  eval_eq : ∀ v, v.Fits scope → f.eval v = value v

/-- The bytes put together from the highest on are the little-endian number. -/
theorem foldl_reverse_eq_ofDigits (byte : ι → Nat) (l : List ι) :
    l.reverse.foldl (fun number i => number * 256 + byte i) 0 = Nat.ofDigits 256 (l.map byte) := by
  rw [List.foldl_reverse]
  induction l with
  | nil => rfl
  | cons i l ih =>
    rw [List.foldr_cons, ih, List.map_cons, Nat.ofDigits_cons]
    omega

namespace Build

def Denotes (scope : Scope) (kept : Formula → Prop) (rules : Rules) (x : Build Formula)
    (width : Nat) (value : Valuation → Nat) : Prop :=
  Makes rules True x fun f => f.Means scope kept width value

namespace Denotes

variable {scope : Scope} {kept : Formula → Prop} {rules : Rules} {f g : Formula}
  {width m n : Nat} {a b : Valuation → Nat}

theorem of_eq {x : Build Formula} {width' : Nat} (h : Denotes scope kept rules x width a)
    (hw : width = width') (hv : ∀ v, v.Fits scope → a v = b v) :
    Denotes scope kept rules x width' b :=
  h.mono id fun _ hf =>
    ⟨hf.kept, hf.word, hf.width_eq.trans hw, fun v hfits => (hf.eval_eq v hfits).trans (hv v hfits)⟩

variable (hk : Hereditary scope kept)

include hk

theorem call {c : Call} (hl : c.plain.Lawful) (hword : c.plain.IsWord)
    (hwidth : WordWidth c.plain.width) (hc : ∀ f ∈ c.plain.children, kept f) :
    Denotes scope kept rules c.run c.plain.width c.plain.eval :=
  (c.renders hk rules hl hc).mono (fun _ => hwidth) fun _ hf =>
    ⟨hf.kept, hf.word hword, hf.width_eq, hf.eval_eq⟩

theorem constant (hw : WordWidth width) (value : Nat) :
    Denotes scope kept rules (constant value width) width fun _ => Word.truncate width value :=
  .of_answers (.constant hw value) ⟨hk.constant hw (truncate_lt _ _), rfl, rfl, fun _ _ => rfl⟩

theorem arith (hw : WordWidth width) (op : ArithOp) (hf : f.Means scope kept width a)
    (hg : g.Means scope kept width b) :
    Denotes scope kept rules (arith op f g) width fun v => op.apply width (a v) (b v) := by
  refine (call hk (c := .arith op f g) ⟨hf.width_eq.trans hg.width_eq.symm, hf.word, hg.word⟩
    trivial (show WordWidth f.width from hf.width_eq ▸ hw)
    (by simpa using ⟨hf.kept, hg.kept⟩)).of_eq hf.width_eq fun v hv => ?_
  simp only [Call.plain, eval, hf.eval_eq v hv, hg.eval_eq v hv, hf.width_eq]

theorem extract {high low : Nat} (hf : f.Means scope kept width a) (hle : low ≤ high)
    (hlt : high < width) (hlim : high - low < limit) :
    Denotes scope kept rules (extract high low f) (high - low + 1)
      fun v => slice high low (a v) := by
  refine (call hk (c := .extract high low f) ⟨hle, hf.width_eq ▸ hlt, hf.word⟩ trivial
    (show 1 ≤ high - low + 1 ∧ high - low + 1 ≤ limit by omega)
    (by simpa using hf.kept)).of_eq rfl fun v hv => ?_
  simp only [Call.plain, eval, hf.eval_eq v hv]
  rfl

theorem concat (hf : f.Means scope kept m a) (hg : g.Means scope kept n b) (hpos : 1 ≤ m + n)
    (hlim : m + n ≤ limit) :
    Denotes scope kept rules (concat f g) (m + n) fun v => join n (a v) (b v) := by
  have hwidth : f.width + g.width = m + n := by rw [hf.width_eq, hg.width_eq]
  refine (call hk (c := .concat f g) ⟨hwidth ▸ hlim, hf.word, hg.word⟩ trivial
    (show WordWidth (f.width + g.width) from hwidth ▸ ⟨hpos, hlim⟩)
    (by simpa using ⟨hf.kept, hg.kept⟩)).of_eq hwidth fun v hv => ?_
  simp only [Call.plain, eval, hf.eval_eq v hv, hg.eval_eq v hv, hg.width_eq]
  rfl

theorem concatBytes {fs : List Formula}
    (hbytes : List.Forall₂ (fun i f => f.Means scope kept 8 (byte i)) l fs) {first : Formula}
    (hfirst : first.Means scope kept m a) (hlim : m + 8 * l.length ≤ limit) :
    Denotes scope kept rules (fs.foldlM Build.concat first) (m + 8 * l.length)
      fun v => l.foldl (fun number i => number * 256 + byte i v) (a v) := by
  -- the word so far grows by one byte a step, so it is generalised with what it means
  induction hbytes generalizing first m a with
  | nil => exact .pure hfirst
  | @cons i f l fs hf _ ih =>
    simp only [List.length_cons] at hlim
    refine (concat hk hfirst hf (by omega) (by omega)).bind fun g hg => ?_
    have hword : g.Means scope kept (m + 8) fun v => a v * 256 + byte i v := by
      refine ⟨hg.kept, hg.word, hg.width_eq, fun v hv => (hg.eval_eq v hv).trans ?_⟩
      have hbyte : f.eval v < modulus f.width := (hk.formed hf.kept).eval_lt hv
      rw [hf.eval_eq v hv, hf.width_eq] at hbyte
      rw [join, ← Nat.shiftLeft_add_eq_or_of_lt (show byte i v < 2 ^ 8 from hbyte),
        Nat.shiftLeft_eq]
    refine (ih hword (by omega)).of_eq ?_ fun v _ => rfl
    rw [List.length_cons]
    omega

/-- Bytes that are built one by one, and put together to a word. -/
theorem number {part : ι → Build Formula}
    (h : ∀ i ∈ l, Denotes scope kept rules (part i) 8 (byte i)) (hpos : 1 ≤ l.length)
    (hmax : l.length ≤ 16) :
    Denotes scope kept rules (do
      let parts ← l.reverse.mapM part
      concatMany parts) (8 * l.length) fun v => Nat.ofDigits 256 (l.map (byte · v)) := by
  obtain ⟨parts, hparts, hmeans⟩ := answers_mapM rules l.reverse
    fun i hi => (h i (List.mem_reverse.1 hi)).answers trivial
  refine Makes.bind (Makes.of_answers hparts hmeans) fun parts hmeans => ?_
  have hlength : l.reverse.length = l.length := List.length_reverse
  have hnumber := fun v => foldl_reverse_eq_ofDigits (byte · v) l
  generalize l.reverse = bytes at hmeans hlength hnumber
  cases hmeans with
  | nil => simp only [List.length_nil] at hlength; omega
  | @cons i f bytes fs hfirst hrest =>
    simp only [List.length_cons] at hlength
    refine (concatBytes hk hrest hfirst (by unfold limit; omega)).of_eq (by omega) fun v _ => ?_
    rw [← hnumber v, List.foldl_cons, zero_mul, zero_add]

end Denotes

end Build

end Concolic
