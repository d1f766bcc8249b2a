import Concolic.Formula.Operator

/-
  Bit-vector formulas.

  A formula is a tree of operators over constants and variables; memory is an
  array formula from addresses to bytes. Every formula carries three values
  that follow from its structure and are stored with it: its `width`, whether
  it is `symbolic` (a variable occurs in it), and its `digest`, a hash.

  Equality of formulas is structural. `Formula.decEq` decides it by comparing
  digests and top operators first and the operands afterwards, and takes two
  formulas that are the same object in memory to be equal without looking
  further. On formulas that come out of one pool, where equal formulas are the
  same object, a comparison therefore looks at one level only.
-/

namespace Concolic

namespace Digest

/-- Combines two hash words. -/
def mix (a b : UInt64) : UInt64 :=
  let word := (a ^^^ (b * 0x9e3779b97f4a7c15)) * 0xbf58476d1ce4e5b9
  word ^^^ (word >>> 29)

/-- Hash of a natural number, from its low 128 bits. -/
def ofNat (value : Nat) : UInt64 := mix value.toUInt64 (value >>> 64).toUInt64

end Digest

/-- A bit-vector formula, or an array from index words to bytes. -/
inductive Formula where
  /-- A word and its width. -/
  | constant (value width : Nat)
  /-- A variable, by number, and its width. -/
  | var (id width : Nat)
  | arith (op : ArithOp) (left right : Formula)
  /-- One bit: whether the comparison holds. -/
  | compare (op : CompareOp) (left right : Formula)
  | unary (op : UnaryOp) (operand : Formula)
  /-- The bits from `low` to `high`, both included. -/
  | extract (high low : Nat) (operand : Formula)
  | concat (high low : Formula)
  /-- The operand with zeros above it, up to `width` bits. -/
  | zeroExtend (width : Nat) (operand : Formula)
  /-- The operand with copies of its sign above it, up to `width` bits. -/
  | signExtend (width : Nat) (operand : Formula)
  /-- Chooses by a one-bit condition. -/
  | ite (cond onTrue onFalse : Formula)
  /-- The initial memory, an array with index words of `width` bits. -/
  | memory (width : Nat)
  /-- The byte of an array at an index. -/
  | select (array index : Formula)
  /-- An array changed at one index. -/
  | store (array index value : Formula)
with
  /-- Hash of the structure. -/
  @[computed_field] digest : Formula → UInt64
    | .constant value width => Digest.mix (Digest.mix 1 (Digest.ofNat value)) (Digest.ofNat width)
    | .var id width => Digest.mix (Digest.mix 2 (Digest.ofNat id)) (Digest.ofNat width)
    | .arith op left right =>
      Digest.mix (Digest.mix (Digest.mix 3 op.code) (digest left)) (digest right)
    | .compare op left right =>
      Digest.mix (Digest.mix (Digest.mix 4 op.code) (digest left)) (digest right)
    | .unary op operand => Digest.mix (Digest.mix 5 op.code) (digest operand)
    | .extract high low operand =>
      Digest.mix (Digest.mix (Digest.mix 6 (Digest.ofNat high)) (Digest.ofNat low)) (digest operand)
    | .concat high low => Digest.mix (Digest.mix 7 (digest high)) (digest low)
    | .zeroExtend width operand => Digest.mix (Digest.mix 8 (Digest.ofNat width)) (digest operand)
    | .signExtend width operand => Digest.mix (Digest.mix 9 (Digest.ofNat width)) (digest operand)
    | .ite cond onTrue onFalse =>
      Digest.mix (Digest.mix (Digest.mix 10 (digest cond)) (digest onTrue)) (digest onFalse)
    | .memory width => Digest.mix 11 (Digest.ofNat width)
    | .select array index => Digest.mix (Digest.mix 12 (digest array)) (digest index)
    | .store array index value =>
      Digest.mix (Digest.mix (Digest.mix 13 (digest array)) (digest index)) (digest value)
  /-- Width in bits; of an array, the width of its index. -/
  @[computed_field] width : Formula → Nat
    | .constant _ width => width
    | .var _ width => width
    | .arith _ left _ => width left
    | .compare _ _ _ => 1
    | .unary _ operand => width operand
    | .extract high low _ => high - low + 1
    | .concat high low => width high + width low
    | .zeroExtend width _ => width
    | .signExtend width _ => width
    | .ite _ onTrue _ => width onTrue
    | .memory width => width
    | .select _ _ => 8
    | .store array _ _ => width array
  /-- Whether a variable occurs in the formula. -/
  @[computed_field] symbolic : Formula → Bool
    | .constant _ _ => false
    | .var _ _ => true
    | .arith _ left right => symbolic left || symbolic right
    | .compare _ left right => symbolic left || symbolic right
    | .unary _ operand => symbolic operand
    | .extract _ _ operand => symbolic operand
    | .concat high low => symbolic high || symbolic low
    | .zeroExtend _ operand => symbolic operand
    | .signExtend _ operand => symbolic operand
    | .ite cond onTrue onFalse => symbolic cond || symbolic onTrue || symbolic onFalse
    | .memory _ => false
    | .select array index => symbolic array || symbolic index
    | .store array index value => symbolic array || symbolic index || symbolic value

namespace Formula

/-- The top of a formula without its operands. -/
inductive Label where
  | constant (value width : Nat)
  | var (id width : Nat)
  | arith (op : ArithOp)
  | compare (op : CompareOp)
  | unary (op : UnaryOp)
  | extract (high low : Nat)
  | concat
  | zeroExtend (width : Nat)
  | signExtend (width : Nat)
  | ite
  | memory (width : Nat)
  | select
  | store
  deriving DecidableEq, Repr

def label : Formula → Label
  | constant value width => .constant value width
  | var id width => .var id width
  | arith op _ _ => .arith op
  | compare op _ _ => .compare op
  | unary op _ => .unary op
  | extract high low _ => .extract high low
  | concat _ _ => .concat
  | zeroExtend width _ => .zeroExtend width
  | signExtend width _ => .signExtend width
  | ite _ _ _ => .ite
  | memory width => .memory width
  | select _ _ => .select
  | store _ _ _ => .store

/-- The operands, from left to right. -/
def children : Formula → List Formula
  | constant _ _ | var _ _ | memory _ => []
  | arith _ left right | compare _ left right => [left, right]
  | unary _ operand | extract _ _ operand => [operand]
  | zeroExtend _ operand | signExtend _ operand => [operand]
  | concat high low => [high, low]
  | select array index => [array, index]
  | ite cond onTrue onFalse => [cond, onTrue, onFalse]
  | store array index value => [array, index, value]

/-- Number of operators and leaves of the tree. -/
def size : Formula → Nat
  | constant _ _ | var _ _ | memory _ => 1
  | arith _ x y | compare _ x y | concat x y | select x y => size x + size y + 1
  | unary _ x | extract _ _ x | zeroExtend _ x | signExtend _ x => size x + 1
  | ite x y z | store x y z => size x + size y + size z + 1

/-- The size of several trees. -/
def sizes : List Formula → Nat
  | [] => 0
  | f :: fs => f.size + sizes fs

theorem sizes_append (a b : List Formula) : sizes (a ++ b) = sizes a + sizes b := by
  induction a with
  | nil => exact (Nat.zero_add _).symm
  | cons f a ih => simp only [List.cons_append, sizes, ih, Nat.add_assoc]

theorem sizes_children (f : Formula) : sizes f.children + 1 = f.size := by
  cases f <;> simp only [children, sizes, size] <;> omega

/-- A formula is its top and its operands. -/
theorem eq_of_label_children {a b : Formula} (hl : a.label = b.label)
    (hc : a.children = b.children) : a = b := by
  cases a <;> cases b <;> simp_all [label, children]

private def decEqNil : (others : List Formula) → Decidable ([] = others)
  | [] => .isTrue rfl
  | _ :: _ => .isFalse nofun

/-- Equality of a list of operands with another, from equality of its head and
of its tail with anything. -/
private def decEqCons {head : Formula} {tail : List Formula}
    (first : (other : Formula) → Decidable (head = other))
    (rest : (others : List Formula) → Decidable (tail = others)) :
    (others : List Formula) → Decidable (head :: tail = others)
  | [] => .isFalse nofun
  | other :: others =>
    match first other with
    | .isFalse h => .isFalse fun e => h (List.cons.inj e).1
    | .isTrue h =>
      match rest others with
      | .isFalse hs => .isFalse fun e => hs (List.cons.inj e).2
      | .isTrue hs => .isTrue (by rw [h, hs])

/-- Equality, decided operand by operand. -/
def decEq : (a b : Formula) → Decidable (a = b)
  | a, b => withPtrEqDecEq a b fun _ =>
    if hd : a.digest = b.digest then
      if hl : a.label = b.label then
        let operands : Decidable (a.children = b.children) :=
          match a with
          | .constant _ _ | .var _ _ | .memory _ => decEqNil b.children
          | .arith _ x y | .compare _ x y | .concat x y | .select x y =>
            decEqCons (decEq x) (decEqCons (decEq y) decEqNil) b.children
          | .unary _ x | .extract _ _ x | .zeroExtend _ x | .signExtend _ x =>
            decEqCons (decEq x) decEqNil b.children
          | .ite x y z | .store x y z =>
            decEqCons (decEq x) (decEqCons (decEq y) (decEqCons (decEq z) decEqNil)) b.children
        match operands with
        | .isTrue hc => .isTrue (eq_of_label_children hl hc)
        | .isFalse hc => .isFalse fun h => hc (congrArg children h)
      else .isFalse fun h => hl (congrArg label h)
    else .isFalse fun h => hd (congrArg digest h)

instance : DecidableEq Formula := decEq

/-- Whether the formula stands for an array. -/
def isArray : Formula → Bool
  | memory _ | store _ _ _ => true
  | _ => false

/-- The word of a constant. -/
def constant? : Formula → Option Nat
  | constant value _ => some value
  | _ => none

/-- The number of a variable. -/
def var? : Formula → Option Nat
  | var id _ => some id
  | _ => none

end Formula

end Concolic
