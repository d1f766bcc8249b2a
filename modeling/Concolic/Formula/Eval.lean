import Concolic.Formula.Memo

/-
  Values of formulas.

  `Formula.eval` is the meaning of a formula under a valuation, by recursion on
  the tree. `Formula.value` computes the same number by a walk that keeps what
  is left to do on a stack and the values it found in a table, so that it is fit
  for formulas that are deep, and for formulas whose tree is far larger than
  their number of distinct parts: each of these is valued once.
-/

namespace Concolic

/-- The values of variables and the bytes of the initial memory. -/
structure Valuation where
  var : Nat → Nat
  byte : Address → UInt8

namespace Formula

mutual

/-- The value of a formula. An array has no value of its own and counts as
zero; it is read through `readArray`. -/
def eval (v : Valuation) : Formula → Nat
  | constant value _ => value
  | var id _ => v.var id
  | arith op left right => op.apply left.width (eval v left) (eval v right)
  | compare op left right => (op.holds left.width (eval v left) (eval v right)).toNat
  | unary op operand => op.apply operand.width (eval v operand)
  | extract high low operand => Word.truncate (high - low + 1) (eval v operand >>> low)
  | concat high low => (eval v high <<< low.width) ||| eval v low
  | zeroExtend _ operand => eval v operand
  | signExtend width operand => Word.signExtend operand.width width (eval v operand)
  | ite cond onTrue onFalse => if eval v cond = 0 then eval v onFalse else eval v onTrue
  | memory _ => 0
  | select array index => readArray v array (eval v index)
  | store _ _ _ => 0

/-- The byte of an array at an address: the one stored last at that address,
or else the byte of the initial memory at the low 64 bits of the address. -/
def readArray (v : Valuation) : Formula → (address : Nat) → Nat
  | store array index value, address =>
    if eval v index = address then eval v value else readArray v array address
  | _, address => (v.byte address.toUInt64).toNat

end

/-! The value of one operator from the values of its parts, which are looked
up. -/

section

variable {m : Type → Type} [Monad m] (v : Valuation) (look : Formula → m Nat)

/-- The byte of an array at an address, found along the chain of its stores. -/
def readStored : Formula → (address : Nat) → m Nat
  | store array index value, address => do
    let place ← look index
    if place = address then look value else readStored array address
  | _, address => pure (v.byte address.toUInt64).toNat

/-- The value of a formula from the values of its parts. -/
def evalTop : Formula → m Nat
  | constant value _ => pure value
  | var id _ => pure (v.var id)
  | arith op left right => do
    let a ← look left
    let b ← look right
    pure (op.apply left.width a b)
  | compare op left right => do
    let a ← look left
    let b ← look right
    pure (op.holds left.width a b).toNat
  | unary op operand => do
    let a ← look operand
    pure (op.apply operand.width a)
  | extract high low operand => do
    let a ← look operand
    pure (Word.truncate (high - low + 1) (a >>> low))
  | concat high low => do
    let a ← look high
    let b ← look low
    pure ((a <<< low.width) ||| b)
  | zeroExtend _ operand => look operand
  | signExtend width operand => do
    let a ← look operand
    pure (Word.signExtend operand.width width a)
  | ite cond onTrue onFalse => do
    let c ← look cond
    if c = 0 then look onFalse else look onTrue
  | memory _ | store _ _ _ => pure 0
  | select array index => do
    let address ← look index
    readStored v look array address

end

/-- An evaluation under way. -/
structure Walk where
  /-- What is left to value, the next on top, and whether its operands were put
  above it before. -/
  stack : List (Formula × Bool)
  /-- The values found. -/
  values : Memo Nat := {}

namespace Walk

/-- The value found for a formula; zero where there is none. -/
def found (w : Walk) (f : Formula) : Nat := (w.values.find? f).getD 0

/-- The operands of a formula that have no value yet, the last on top. -/
def pending (w : Walk) (f : Formula) : List (Formula × Bool) :=
  ((f.children.filter fun g => (w.values.find? g).isNone).map fun g => (g, false)).reverse

/-- Takes the top off the stack: what has a value is dropped, what had its
operands above it gets its value, and anything else is put back under its
operands. -/
def step (v : Valuation) (w : Walk) : Walk :=
  match w.stack with
  | [] => w
  | (f, opened) :: rest =>
    if (w.values.find? f).isSome then { w with stack := rest }
    else if opened then
      { stack := rest, values := w.values.insert f (evalTop (m := Id) v w.found f) }
    else { w with stack := w.pending f ++ (f, true) :: rest }

/-- The work that a stack stands for. -/
def work : List (Formula × Bool) → Nat
  | [] => 0
  | (f, opened) :: rest => (if opened then 1 else 2 * f.size) + work rest

theorem work_append (a b : List (Formula × Bool)) : work (a ++ b) = work a + work b := by
  induction a with
  | nil => simp [work]
  | cons entry a ih => simp only [List.cons_append, work, ih, Nat.add_assoc]

theorem work_reverse (a : List (Formula × Bool)) : work a.reverse = work a := by
  induction a with
  | nil => rfl
  | cons entry a ih =>
    simp only [List.reverse_cons, work_append, ih, work]
    omega

theorem work_filter_le (p : Formula → Bool) (l : List Formula) :
    work ((l.filter p).map fun g => (g, false)) ≤ work (l.map fun g => (g, false)) := by
  induction l with
  | nil => exact Nat.le_refl _
  | cons g l ih => by_cases h : p g <;> simp [h, work] <;> omega

/-- All operands of a formula are less work than the formula. -/
theorem work_children (f : Formula) :
    work (f.children.map fun g => (g, false)) + 2 = 2 * f.size := by
  cases f <;> simp only [children, List.map_cons, List.map_nil, work, Formula.size] <;> simp <;>
    omega

theorem work_pos (f : Formula) (opened : Bool) (rest : List (Formula × Bool)) :
    work rest < work ((f, opened) :: rest) := by
  have hsize := work_children f
  simp only [work]
  split <;> omega

/-- Every step leaves less to do. -/
theorem work_step_lt (v : Valuation) {w : Walk} (h : w.stack.isEmpty = false) :
    work (w.step v).stack < work w.stack := by
  unfold step
  split
  · next hstack => simp [hstack] at h
  · next f opened rest hstack =>
    rw [hstack]
    split
    · exact work_pos f opened rest
    · split
      · exact work_pos f opened rest
      · next hopened =>
        have hle := work_filter_le (fun g => (w.values.find? g).isNone) f.children
        have hsize := work_children f
        simp only [pending, work_append, work_reverse, work, hopened]
        simp only [if_true, Bool.false_eq_true, if_false]
        omega

/-- Walks until nothing is left to do. -/
def finish (v : Valuation) (w : Walk) : Walk :=
  if w.stack.isEmpty then w else finish v (w.step v)
termination_by work w.stack
decreasing_by
  next h => exact work_step_lt v (Bool.eq_false_iff.2 h)

/-- The evaluation of a formula before its first step. -/
def start (f : Formula) : Walk := { stack := [(f, false)] }

end Walk

/-- The value of a formula, computed once for each of its distinct parts. -/
def value (v : Valuation) (f : Formula) : Nat := ((Walk.start f).finish v).found f

end Formula

end Concolic
