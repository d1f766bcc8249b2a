import Mathlib.Data.BitVec
import Concolic.Proofs.Smt.Reader
import Concolic.Proofs.Word

/-
  The theory of arrays and bit-vectors.

  The sorts of SMT-LIB that a term can have, with their elements, and the value of a
  term (`SExpr.value`). A term that is not well sorted, or has a word in it that is
  neither declared nor of the theory, has no value. The operators are those of the
  standard, on `BitVec`: division by zero gives all ones, the remainder is then the
  dividend, the signed ones are defined from the unsigned by the signs, and a shift by
  the width or more leaves nothing but the sign of an arithmetic one.

  Each operator of formulas has, on words, the value of the operator of the theory
  that it is printed as (`apply_eq_binary`, `holds_eq_predicate`, `apply_eq_unary`).
-/

namespace Concolic

open Word

variable {count : Nat}

namespace Smt

/-- The sorts: Booleans, bit-vectors, and arrays of bit-vectors. -/
inductive Ty where
  | bool
  | bitVec (width : Nat)
  | array (index element : Nat)
  deriving DecidableEq

namespace Ty

/-- The elements of a sort. -/
def Carrier : Ty → Type
  | bool => Bool
  | bitVec width => BitVec width
  | array index element => BitVec index → BitVec element

/-- A bit-vector has at least one bit. -/
def Legal : Ty → Prop
  | bool => True
  | bitVec width => 0 < width
  | array index element => 0 < index ∧ 0 < element

instance : DecidablePred Legal := fun ty => by
  cases ty <;> unfold Legal <;> infer_instance

end Ty

/-- An element of a sort. -/
abbrev Value := (ty : Ty) × ty.Carrier

def word {width : Nat} (x : BitVec width) : Value := ⟨.bitVec width, x⟩

def truth (b : Bool) : Value := ⟨.bool, b⟩

/-- What the declared symbols stand for. -/
abbrev Interpretation := String → Option Value

/-! Operators. -/

def binary? : String → Option (∀ width, BitVec width → BitVec width → BitVec width)
  | "bvadd" => some fun _ x y => x + y
  | "bvsub" => some fun _ x y => x - y
  | "bvmul" => some fun _ x y => x * y
  | "bvudiv" => some fun _ x y => x.smtUDiv y
  | "bvurem" => some fun _ x y => x % y
  | "bvsdiv" => some fun _ x y => x.smtSDiv y
  | "bvsrem" => some fun _ x y => x.srem y
  | "bvand" => some fun _ x y => x &&& y
  | "bvor" => some fun _ x y => x ||| y
  | "bvxor" => some fun _ x y => x ^^^ y
  | "bvshl" => some fun _ x y => x <<< y.toNat
  | "bvlshr" => some fun _ x y => x >>> y.toNat
  | "bvashr" => some fun _ x y => x.sshiftRight y.toNat
  | _ => none

def predicate? : String → Option (∀ width, BitVec width → BitVec width → Bool)
  | "=" => some fun _ x y => x == y
  | "distinct" => some fun _ x y => x != y
  | "bvult" => some fun _ x y => x.ult y
  | "bvule" => some fun _ x y => x.ule y
  | "bvugt" => some fun _ x y => y.ult x
  | "bvuge" => some fun _ x y => y.ule x
  | "bvslt" => some fun _ x y => x.slt y
  | "bvsle" => some fun _ x y => x.sle y
  | "bvsgt" => some fun _ x y => y.slt x
  | "bvsge" => some fun _ x y => y.sle x
  | _ => none

def unary? : String → Option (∀ width, BitVec width → BitVec width)
  | "bvnot" => some fun _ x => ~~~x
  | "bvneg" => some fun _ x => -x
  | _ => none

def applyTwo (op : String) {m n : Nat} (x : BitVec m) (y : BitVec n) : Option Value :=
  if op = "concat" then some (word (x ++ y))
  else if h : n = m then
    match binary? op, predicate? op with
    | some f, _ => some (word (f m x (y.cast h)))
    | none, some p => some (truth (p m x (y.cast h)))
    | none, none => none
  else none

def apply (op : String) : List Value → Option Value
  | [⟨.bitVec width, x⟩] => (unary? op).map fun f => word (f width x)
  | [⟨.bitVec _, x⟩, ⟨.bitVec _, y⟩] => applyTwo op x y
  | [⟨.array index _, a⟩, ⟨.bitVec n, k⟩] =>
    if h : op = "select" ∧ n = index then some (word (a (k.cast h.2))) else none
  | [⟨.array index element, a⟩, ⟨.bitVec m, k⟩, ⟨.bitVec n, x⟩] =>
    if h : op = "store" ∧ m = index ∧ n = element then
      some ⟨.array index element,
        fun j => if j = k.cast h.2.1 then x.cast h.2.2 else a j⟩
    else none
  | [⟨.bool, c⟩, ⟨ty, a⟩, ⟨ty', b⟩] =>
    if h : op = "ite" ∧ ty' = ty then
      some ⟨ty, match c with | true => a | false => h.2 ▸ b⟩
    else none
  | _ => none

/-- An operator with numerals on its arguments, if it has a value on such. -/
def applyIndexed (op : String) (indices : List Nat) : List Value → Option Value
  | [⟨.bitVec width, x⟩] =>
    match op, indices with
    | "extract", [high, low] =>
      if low ≤ high ∧ high < width then some (word (x.extractLsb high low)) else none
    | "zero_extend", [count] => some (word (x.setWidth (width + count)))
    | "sign_extend", [count] => some (word (x.signExtend (width + count)))
    | "rotate_left", [count] => some (word (x.rotateLeft count))
    | "rotate_right", [count] => some (word (x.rotateRight count))
    | _, _ => none
  | _ => none

/-! Terms. -/

/-- A number in decimal, with no digit too many. -/
def numeral? (text : String) : Option Nat := text.toNat?.filter fun n => toString n = text

/-- The number at the end of a word such as `bv13`, after the letters. -/
def numberAfter? (letters text : String) : Option Nat :=
  if letters.toList.isPrefixOf text.toList then
    numeral? (String.ofList (text.toList.drop letters.length))
  else none

/-- The bit-vector of `(_ bv13 32)`, from what stands after the underscore. -/
def literal : List SExpr → Option Value
  | [.atom name, .atom size] => do
    let value ← numberAfter? "bv" name
    let width ← numeral? size
    if 0 < width ∧ value < 2 ^ width then some (word (BitVec.ofNat width value)) else none
  | _ => none

def index? : SExpr → Option Nat
  | .atom text => numeral? text
  | .list _ => none

/-- An operator with its numerals, such as `(_ extract 7 0)`. -/
def indexed? : List SExpr → Option (String × List Nat)
  | .atom mark :: .atom op :: indices =>
    if mark = "_" then (indices.mapM index?).map fun indices => (op, indices) else none
  | _ => none

def symbol (declared : Interpretation) (name : String) : Option Value :=
  if name = "#b0" then some (word 0#1)
  else if name = "#b1" then some (word 1#1)
  else (declared name).filter fun value => value.1.Legal

theorem numeral?_toString (n : Nat) : numeral? (toString n) = some n := by
  have h : (toString n).toNat? = some n := Nat.toNat?_repr n
  rw [numeral?, h, Option.filter_some, if_pos (decide_eq_true rfl)]

theorem numberAfter?_append (letters : String) (n : Nat) :
    numberAfter? letters (letters ++ toString n) = some n := by
  have hstart : letters.toList.isPrefixOf (letters.toList ++ (toString n).toList) = true :=
    List.isPrefixOf_iff_prefix.2 (List.prefix_append _ _)
  rw [numberAfter?, String.toList_append, if_pos hstart, ← String.length_toList,
    List.drop_left, String.ofList_toList, numeral?_toString]

theorem indexed?_numerals (op : String) (indices : List Nat) :
    indexed? (.atom "_" :: .atom op :: indices.map fun index => .atom (toString index)) =
      some (op, indices) := by
  have hall : (indices.map fun index => SExpr.atom (toString index)).mapM index? =
      some indices := by
    induction indices with
    | nil => rfl
    | cons index indices ih =>
      rw [List.map_cons, List.mapM_cons, ih, index?, numeral?_toString]
      rfl
  rw [indexed?, if_pos rfl, hall, Option.map_some]

end Smt

namespace SExpr

open Smt (Value Interpretation)

mutual

def value (declared : Interpretation) : SExpr → Option Value
  | atom name => Smt.symbol declared name
  | list [] => none
  | list (atom op :: args) =>
    if op = "_" then Smt.literal args else (values declared args).bind (Smt.apply op)
  | list (list head :: args) =>
    (Smt.indexed? head).bind fun (op, indices) =>
      (values declared args).bind (Smt.applyIndexed op indices)

def values (declared : Interpretation) : List SExpr → Option (List Value)
  | [] => some []
  | term :: rest => do
    let first ← value declared term
    let others ← values declared rest
    some (first :: others)

end

end SExpr

/-! Words and bit-vectors. -/

namespace Word

variable {width : Nat} (hw : width ≤ limit)
include hw

theorem lt_modulus (x : BitVec width) : x.toNat < modulus width := by
  rw [modulus_eq hw]
  exact x.isLt

theorem truncate_toNat (x : BitVec width) : truncate width x.toNat = x.toNat :=
  truncate_of_lt (lt_modulus hw x)

theorem truncate_eq (value : Nat) : truncate width value = (BitVec.ofNat width value).toNat := by
  rw [truncate, modulus_eq hw, BitVec.toNat_ofNat]

theorem ones_eq : ones width = (BitVec.allOnes width).toNat := by
  rw [ones, modulus_eq hw, BitVec.toNat_allOnes]

theorem signed_eq (x : BitVec width) : signed width x.toNat = x.toInt := by
  rw [signed, truncate_toNat hw, modulus_eq hw, BitVec.toInt_eq_toNat_cond]

theorem wrap_eq (value : Int) : wrap width value = (BitVec.ofInt width value).toNat := by
  rw [wrap, modulus_eq hw, BitVec.toNat_ofInt]

theorem add_eq (x y : BitVec width) : add width x.toNat y.toNat = (x + y).toNat := by
  rw [add, truncate, modulus_eq hw, BitVec.toNat_add]

theorem mul_eq (x y : BitVec width) : mul width x.toNat y.toNat = (x * y).toNat := by
  rw [mul, truncate, modulus_eq hw, BitVec.toNat_mul]

theorem sub_eq (x y : BitVec width) : sub width x.toNat y.toNat = (x - y).toNat := by
  have hofInt : BitVec.ofInt width ((x.toNat : Int) - y.toNat) = x - y := by
    rw [sub_eq_add_neg, BitVec.ofInt_add, BitVec.ofInt_neg, BitVec.ofInt_natCast,
      BitVec.ofInt_natCast, BitVec.ofNat_toNat, BitVec.ofNat_toNat, BitVec.setWidth_eq,
      BitVec.setWidth_eq, sub_eq_add_neg]
  rw [sub, wrap_eq hw, hofInt]

theorem neg_eq (x : BitVec width) : neg width x.toNat = (-x).toNat := by
  have hofInt : BitVec.ofInt width (-(x.toNat : Int)) = -x := by
    rw [BitVec.ofInt_neg, BitVec.ofInt_natCast, BitVec.ofNat_toNat, BitVec.setWidth_eq]
  rw [neg, wrap_eq hw, hofInt]

theorem not_eq (x : BitVec width) : not width x.toNat = (~~~x).toNat := by
  rw [not, ones_eq hw, ← BitVec.toNat_xor, BitVec.allOnes_xor, truncate_toNat hw]

theorem udiv_eq (x y : BitVec width) : udiv width x.toNat y.toNat = (x.smtUDiv y).toNat := by
  rw [udiv, BitVec.smtUDiv_eq]
  by_cases hy : y = BitVec.ofNat width 0
  · rw [if_pos (by simp [hy]), if_pos hy, ones_eq hw]
  · have hne : y.toNat ≠ 0 := fun h => hy (BitVec.eq_of_toNat_eq (by simpa using h))
    rw [if_neg hne, if_neg hy, ← BitVec.toNat_udiv, truncate_toNat hw]

theorem urem_eq (x y : BitVec width) : urem width x.toNat y.toNat = (x % y).toNat := by
  rw [urem, ← BitVec.toNat_umod, truncate_toNat hw, truncate_toNat hw]
  split
  · next hzero =>
    have hy : y = BitVec.ofNat width 0 := BitVec.eq_of_toNat_eq (by simpa using hzero)
    rw [hy, BitVec.umod_zero]
  · rfl

omit hw in
theorem smtSDiv_of_ne {x y : BitVec width} (hy : y ≠ BitVec.ofNat width 0) :
    x.smtSDiv y = x.sdiv y := by
  have hneg : -y ≠ BitVec.ofNat width 0 := by simpa using hy
  rw [BitVec.smtSDiv_eq, BitVec.sdiv_eq]
  cases x.msb <;> cases y.msb <;> simp [BitVec.smtUDiv_eq, hy, hneg]

theorem sdiv_eq (x y : BitVec width) : sdiv width x.toNat y.toNat = (x.smtSDiv y).toNat := by
  simp only [sdiv, signed_eq hw]
  by_cases hy : y = BitVec.ofNat width 0
  · subst hy
    rw [if_pos (by simp), BitVec.smtSDiv_zero, BitVec.slt_eq_decide]
    simp only [BitVec.toInt_zero, decide_eq_true_eq]
    split
    · exact truncate_eq hw 1
    · rw [ones_eq hw, truncate_toNat hw]
  · have hne : y.toInt ≠ 0 := fun h => hy (BitVec.eq_of_toInt_eq (by simpa using h))
    have hofInt : BitVec.ofInt width (x.toInt.tdiv y.toInt) = x.sdiv y := by
      apply BitVec.eq_of_toInt_eq
      rw [BitVec.toInt_ofInt, BitVec.toInt_sdiv]
    rw [if_neg hne, smtSDiv_of_ne hy, wrap_eq hw, hofInt]

theorem srem_eq (x y : BitVec width) : srem width x.toNat y.toNat = (x.srem y).toNat := by
  simp only [srem, signed_eq hw]
  have hofInt : BitVec.ofInt width (x.toInt.tmod y.toInt) = x.srem y := by
    apply BitVec.eq_of_toInt_eq
    rw [BitVec.toInt_ofInt, ← BitVec.toInt_srem, BitVec.toInt_bmod_cancel]
  split
  · next hzero =>
    have hy : y = BitVec.ofNat width 0 := BitVec.eq_of_toInt_eq (by simpa using hzero)
    rw [hy, BitVec.srem_zero, truncate_toNat hw]
  · rw [wrap_eq hw, hofInt]

section

variable (x : BitVec width)

include x

theorem shl_eq (count : Nat) : shl width x.toNat count = (x <<< count).toNat := by
  rw [shl]
  split
  · next h => rw [BitVec.shiftLeft_eq_zero h, BitVec.toNat_zero]
  · rw [truncate, modulus_eq hw, BitVec.toNat_shiftLeft]

theorem lshr_eq (count : Nat) : lshr width x.toNat count = (x >>> count).toNat := by
  rw [lshr]
  split
  · next h => rw [BitVec.ushiftRight_eq_zero h, BitVec.toNat_zero]
  · rw [← BitVec.toNat_ushiftRight, truncate_toNat hw]

theorem ashr_eq (count : Nat) : ashr width x.toNat count = (x.sshiftRight count).toNat := by
  have hofInt : BitVec.ofInt width (x.toInt >>> count) = x.sshiftRight count := by
    apply BitVec.eq_of_toInt_eq
    rw [BitVec.toInt_ofInt, ← BitVec.toInt_sshiftRight, BitVec.toInt_bmod_cancel]
  rw [ashr]
  split
  · next h =>
    have hcopies : x.sshiftRight count =
        if x.msb then BitVec.allOnes width else BitVec.ofNat width 0 := by
      ext i hi
      rw [BitVec.getElem_sshiftRight, dif_neg (by omega)]
      cases x.msb <;> simp
    have htop : topBit width x.toNat = x.msb := by
      rw [topBit, BitVec.msb_eq_getLsbD_last, ← BitVec.testBit_toNat]
    rw [hcopies, htop, ones_eq hw]
    cases x.msb <;> simp
  · rw [signed_eq hw, wrap_eq hw, hofInt]

/-- A rotation by less than the width, as two shifts. -/
theorem rotate_eq (h : count < width) :
    rotate width x.toNat count = (x <<< count ||| x >>> (width - count)).toNat := by
  rw [rotate, BitVec.toNat_or, BitVec.toNat_shiftLeft, BitVec.toNat_ushiftRight]
  have hshift : x.toNat >>> (width - count) < 2 ^ width :=
    lt_of_le_of_lt (Nat.shiftRight_le _ _) x.isLt
  split
  · next hzero =>
    subst hzero
    rw [truncate_toNat hw, Nat.shiftLeft_zero, Nat.sub_zero, Nat.mod_eq_of_lt x.isLt,
      Nat.shiftRight_eq_div_pow, Nat.div_eq_of_lt x.isLt, Nat.or_zero]
  · rw [truncate, modulus_eq hw, Nat.or_mod_two_pow, Nat.mod_eq_of_lt hshift]

/-- The right shift of a rotation to the right comes first. -/
theorem rotate_right_eq (h : count < width) :
    rotate width x.toNat ((width - count) % width) =
      (x >>> count ||| x <<< (width - count)).toNat := by
  by_cases hzero : count = 0
  · subst hzero
    rw [Nat.sub_zero, Nat.mod_self, rotate_eq hw x h, Nat.sub_zero, BitVec.shiftLeft_zero,
      BitVec.ushiftRight_zero, BitVec.ushiftRight_eq_zero (le_refl _),
      BitVec.shiftLeft_eq_zero (le_refl _)]
  · rw [Nat.mod_eq_of_lt (by omega), rotate_eq hw x (by omega), BitVec.or_comm,
      show width - (width - count) = count by omega]

end

section

variable (hpos : 1 ≤ width) (x : BitVec width)

include hpos x

theorem rol_eq (count : Nat) :
    rol width x.toNat count = (x <<< (count % width) ||| x >>> (width - count % width)).toNat :=
  rotate_eq hw x (Nat.mod_lt _ hpos)

theorem ror_eq (count : Nat) :
    ror width x.toNat count = (x >>> (count % width) ||| x <<< (width - count % width)).toNat :=
  rotate_right_eq hw x (Nat.mod_lt _ hpos)

theorem rol_eq_shifts (count : Nat) :
    rol width x.toNat count = or width (shl width x.toNat (count % width))
      (lshr width x.toNat (width - count % width)) := by
  rw [rol_eq hw hpos, shl_eq hw, lshr_eq hw, or, ← BitVec.toNat_or, truncate_toNat hw]

theorem ror_eq_shifts (count : Nat) :
    ror width x.toNat count = or width (lshr width x.toNat (count % width))
      (shl width x.toNat (width - count % width)) := by
  rw [ror_eq hw hpos, shl_eq hw, lshr_eq hw, or, ← BitVec.toNat_or, truncate_toNat hw]

end

theorem width_lt_modulus : width < modulus width := by
  rw [modulus_eq hw]
  exact Nat.lt_two_pow_self

/-- A count modulo the width, which is itself a word. -/
theorem urem_width (hpos : 1 ≤ width) (count : Nat) : urem width count width = count % width := by
  have hlt : count % width < modulus width := lt_trans (Nat.mod_lt _ hpos) (width_lt_modulus hw)
  rw [urem, if_neg (by omega), truncate_of_lt hlt]

theorem width_sub (hle : count ≤ width) : sub width width count = width - count := by
  have hlt : width - count < modulus width := lt_of_le_of_lt (Nat.sub_le _ _) (width_lt_modulus hw)
  rw [sub, ← Int.natCast_sub hle, wrap_natCast, truncate_of_lt hlt]

end Word

/-! The operators of formulas. -/

section

variable {width : Nat} (hw : width ≤ Word.limit)
include hw

theorem ArithOp.apply_eq_binary {op : ArithOp} (hrol : op ≠ .rol) (hror : op ≠ .ror) :
    ∃ f, Smt.binary? op.smtName = some f ∧
      ∀ x y : BitVec width, op.apply width x.toNat y.toNat = (f width x y).toNat := by
  cases op with
  | add => exact ⟨_, rfl, add_eq hw⟩
  | sub => exact ⟨_, rfl, sub_eq hw⟩
  | mul => exact ⟨_, rfl, mul_eq hw⟩
  | udiv => exact ⟨_, rfl, udiv_eq hw⟩
  | sdiv => exact ⟨_, rfl, sdiv_eq hw⟩
  | urem => exact ⟨_, rfl, urem_eq hw⟩
  | srem => exact ⟨_, rfl, srem_eq hw⟩
  | and => exact ⟨_, rfl, fun x y => truncate_toNat hw (x &&& y)⟩
  | or => exact ⟨_, rfl, fun x y => truncate_toNat hw (x ||| y)⟩
  | xor => exact ⟨_, rfl, fun x y => truncate_toNat hw (x ^^^ y)⟩
  | shl => exact ⟨_, rfl, fun x y => shl_eq hw x y.toNat⟩
  | lshr => exact ⟨_, rfl, fun x y => lshr_eq hw x y.toNat⟩
  | ashr => exact ⟨_, rfl, fun x y => ashr_eq hw x y.toNat⟩
  | rol => exact absurd rfl hrol
  | ror => exact absurd rfl hror

theorem CompareOp.holds_eq_predicate (op : CompareOp) :
    ∃ p, Smt.predicate? op.smtName = some p ∧
      ∀ x y : BitVec width, op.holds width x.toNat y.toNat = p width x y := by
  cases op with
  | eq => exact ⟨_, rfl, fun x y => by
      rw [holds, Bool.eq_iff_iff, beq_iff_eq, beq_iff_eq, BitVec.toNat_inj]⟩
  | ne => exact ⟨_, rfl, fun x y => by
      rw [holds, Bool.eq_iff_iff, bne_iff_ne, bne_iff_ne, Ne, Ne, BitVec.toNat_inj]⟩
  | ult => exact ⟨_, rfl, fun x y => rfl⟩
  | ule => exact ⟨_, rfl, fun x y => rfl⟩
  | ugt => exact ⟨_, rfl, fun x y => rfl⟩
  | uge => exact ⟨_, rfl, fun x y => rfl⟩
  | slt => exact ⟨_, rfl, fun x y => by
      rw [holds, signed_eq hw, signed_eq hw, BitVec.slt_eq_decide]⟩
  | sle => exact ⟨_, rfl, fun x y => by
      rw [holds, signed_eq hw, signed_eq hw, BitVec.sle_eq_decide]⟩
  | sgt => exact ⟨_, rfl, fun x y => by
      rw [holds, signed_eq hw, signed_eq hw, BitVec.slt_eq_decide]⟩
  | sge => exact ⟨_, rfl, fun x y => by
      rw [holds, signed_eq hw, signed_eq hw, BitVec.sle_eq_decide]⟩

theorem UnaryOp.apply_eq_unary (op : UnaryOp) :
    ∃ f, Smt.unary? op.smtName = some f ∧
      ∀ x : BitVec width, op.apply width x.toNat = (f width x).toNat := by
  cases op with
  | not => exact ⟨_, rfl, not_eq hw⟩
  | neg => exact ⟨_, rfl, neg_eq hw⟩

end

end Concolic
