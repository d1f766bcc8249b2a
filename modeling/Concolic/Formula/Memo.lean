import Std.Data.ExtTreeMap
import Concolic.Formula.Basic

/-
  Tables keyed by formulas, arranged by digest. They let a walk over a formula
  treat each distinct part once, however often it is shared.
-/

namespace Concolic

/-- A table from formulas to values. -/
structure Memo (α : Type) where
  /-- The entries, by the digest of their formula. -/
  buckets : Std.ExtTreeMap UInt64 (List (Formula × α)) := ∅

namespace Memo

variable {α : Type}

/-- The entries whose formula has the digest of `f`. -/
def bucket (memo : Memo α) (f : Formula) : List (Formula × α) := memo.buckets[f.digest]?.getD []

def find? (memo : Memo α) (f : Formula) : Option α := (memo.bucket f).lookup f

/-- Adds an entry, which replaces one for the same formula. -/
def insert (memo : Memo α) (f : Formula) (value : α) : Memo α :=
  { memo with buckets := memo.buckets.insert f.digest ((f, value) :: memo.bucket f) }

@[simp] theorem find?_empty (f : Formula) : ({} : Memo α).find? f = none := by
  simp [find?, bucket]

theorem find?_insert (memo : Memo α) (f g : Formula) (value : α) :
    (memo.insert f value).find? g = if g = f then some value else memo.find? g := by
  by_cases hd : f.digest = g.digest
  · by_cases hg : g = f
    · subst hg
      simp [find?, bucket, insert]
    · have : (g == f) = false := by simpa using hg
      simp [find?, bucket, insert, hd, List.lookup_cons, this, hg]
  · have hg : g ≠ f := fun h => hd (congrArg Formula.digest h).symm
    simp [find?, bucket, insert, Std.ExtTreeMap.getElem?_insert, hd, hg]

/-- Looks a formula up, and computes and records its value where there is
none. -/
def remember {m : Type → Type} [Monad m] (f : Formula) (compute : StateT (Memo α) m α) :
    StateT (Memo α) m α := do
  match (← get).find? f with
  | some value => pure value
  | none =>
    let value ← compute
    modify fun memo => memo.insert f value
    pure value

end Memo

end Concolic
