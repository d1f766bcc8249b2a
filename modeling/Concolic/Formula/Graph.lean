import Concolic.Formula.Memo

/-
  Walks over the distinct parts of a formula: the variables that occur in it,
  and the list of its parts in which operands come before their operators.
-/

namespace Concolic.Formula

/-- The variables found so far, in order, and the parts already searched. -/
structure Search where
  found : Array Nat := #[]
  seen : Memo Unit := {}

/-- Enters a part, which may be a variable. -/
def Search.meet (s : Search) (f : Formula) : Search where
  found := s.found ++ f.var?.toArray
  seen := s.seen.insert f ()

/-- Searches the parts on a stack, the next on top. A part without variables and
a part already seen are passed over; the operands of any other take its place,
the first on top. -/
def search : List Formula → Search → Search
  | [], s => s
  | f :: rest, s =>
    if f.symbolic && (s.seen.find? f).isNone then search (f.children ++ rest) (s.meet f)
    else search rest s
termination_by stack => sizes stack
decreasing_by
  all_goals
    have hsize := sizes_children f
    simp only [sizes, sizes_append]
    omega

/-- The variables of a formula, each once, in the order of their first
occurrence from left to right. -/
def varIds (f : Formula) : Array Nat := (search [f] {}).found

/-- The parts listed so far and the place of each in the list. -/
structure Listing where
  parts : Array (Label × List Nat) := #[]
  place : Memo Nat := {}

/-- Appends a part whose operands are already listed at the given places. -/
def Listing.append (f : Formula) (operands : List Nat) (s : Listing) : Nat × Listing :=
  (s.parts.size,
    { parts := s.parts.push (f.label, operands), place := s.place.insert f s.parts.size })

/-- Lists the parts of one more formula that are not listed yet, operands
first, and returns the formula's place. -/
def list : Formula → Listing → Nat × Listing
  | f, s =>
    match s.place.find? f with
    | some place => (place, s)
    | none =>
      match f with
      | var _ _ | constant _ _ | memory _ => s.append f []
      | arith _ x y | compare _ x y | concat x y | select x y =>
        let (i, s) := list x s
        let (j, s) := list y s
        s.append f [i, j]
      | unary _ x | extract _ _ x | zeroExtend _ x | signExtend _ x =>
        let (i, s) := list x s
        s.append f [i]
      | ite x y z | store x y z =>
        let (i, s) := list x s
        let (j, s) := list y s
        let (k, s) := list z s
        s.append f [i, j, k]

/-- The distinct parts of a formula, operands before operators and from left
to right, each with the places of its operands. -/
def parts (f : Formula) : Array (Label × List Nat) := (list f {}).2.parts

end Concolic.Formula
