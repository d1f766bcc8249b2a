import Concolic.Proofs.Session
import Concolic.Proofs.Smt.Theory

/-
  The text of a formula means the formula.

  A formula is printed for a solver that reads its text as a term of the theory of
  arrays and bit-vectors. Where no condition chooses between arrays and all memory
  arrays have one index width (`Formula.Printable`), one declaration of every
  variable and of the memory gives the term a sort and a value
  (`Scope.interpretation`). The induction is over the formula: a word is the
  bit-vector with its value, and an array is the function with its bytes
  (`toSmt_value`). So the solver is asked about what the formula computes
  (`text_means_value`).
-/

namespace Concolic

open Word

variable {f : Formula} {op : ArithOp} {wide width : Nat} {first second term : SExpr} {v : Valuation}

namespace Smt

variable {element index low : Nat}

def bits (width value : Nat) : Value := word (BitVec.ofNat width value)

theorem bits_toNat (x : BitVec width) : bits width x.toNat = word x := by
  rw [bits, BitVec.ofNat_toNat, BitVec.setWidth_eq]

theorem toNat_ofNat {a : Nat} (hw : width ≤ limit) (ha : a < modulus width) :
    (BitVec.ofNat width a).toNat = a := by
  rw [← truncate_eq hw, truncate_of_lt ha]

/-! The operators on the bit-vectors of numbers. -/

section

variable {width a b : Nat} (hw : width ≤ limit) (ha : a < modulus width)
include hw ha

section

variable (hb : b < modulus width)
include hb

theorem apply_arith (hrol : op ≠ .rol) (hror : op ≠ .ror) :
    apply op.smtName [bits width a, bits width b] = some (bits width (op.apply width a b)) := by
  obtain ⟨f, hf, hvalue⟩ := ArithOp.apply_eq_binary hw hrol hror
  have hconcat : op.smtName ≠ "concat" := by cases op <;> decide
  have happly := hvalue (BitVec.ofNat width a) (BitVec.ofNat width b)
  rw [toNat_ofNat hw ha, toNat_ofNat hw hb] at happly
  show applyTwo op.smtName (BitVec.ofNat width a) (BitVec.ofNat width b) = _
  rw [applyTwo, if_neg hconcat, dif_pos rfl, hf, happly, bits_toNat]
  rfl

theorem apply_compare (op : CompareOp) :
    apply op.smtName [bits width a, bits width b] = some (truth (op.holds width a b)) := by
  obtain ⟨p, hp, hvalue⟩ := CompareOp.holds_eq_predicate hw op
  have hconcat : op.smtName ≠ "concat" := by cases op <;> decide
  have hbinary : binary? op.smtName = none := by cases op <;> rfl
  have hholds := hvalue (BitVec.ofNat width a) (BitVec.ofNat width b)
  rw [toNat_ofNat hw ha, toNat_ofNat hw hb] at hholds
  show applyTwo op.smtName (BitVec.ofNat width a) (BitVec.ofNat width b) = _
  rw [applyTwo, if_neg hconcat, dif_pos rfl, hbinary, hp, hholds]
  rfl

end

theorem apply_unary (op : UnaryOp) :
    apply op.smtName [bits width a] = some (bits width (op.apply width a)) := by
  obtain ⟨f, hf, hvalue⟩ := UnaryOp.apply_eq_unary hw op
  have happly := hvalue (BitVec.ofNat width a)
  rw [toNat_ofNat hw ha] at happly
  show (unary? op.smtName).map _ = _
  rw [hf, Option.map_some, happly, bits_toNat]

theorem apply_concat (hlow : low ≤ limit) (hb : b < modulus low) :
    apply "concat" [bits width a, bits low b] = some (bits (width + low) (a <<< low ||| b)) := by
  have hjoin := BitVec.toNat_append (BitVec.ofNat width a) (BitVec.ofNat low b)
  rw [toNat_ofNat hw ha, toNat_ofNat hlow hb] at hjoin
  rw [← hjoin, bits_toNat]
  rfl

theorem applyIndexed_extract {high : Nat} (hle : low ≤ high) (hlt : high < width) :
    applyIndexed "extract" [high, low] [bits width a] =
      some (bits (high - low + 1) (truncate (high - low + 1) (a >>> low))) := by
  have hslice := BitVec.extractLsb_toNat high low (BitVec.ofNat width a)
  rw [toNat_ofNat hw ha, ← modulus_eq (by omega)] at hslice
  rw [truncate, ← hslice, bits_toNat]
  exact if_pos ⟨hle, hlt⟩

theorem applyIndexed_zeroExtend (hle : width ≤ wide) :
    applyIndexed "zero_extend" [wide - width] [bits width a] = some (bits wide a) := by
  obtain ⟨more, rfl⟩ := Nat.exists_eq_add_of_le hle
  have hlt : a < 2 ^ width := modulus_eq hw ▸ ha
  have hsame : (BitVec.ofNat width a).setWidth (width + more) = BitVec.ofNat (width + more) a :=
    BitVec.setWidth_ofNat_of_le_of_lt hle hlt
  rw [Nat.add_sub_cancel_left]
  exact congrArg (fun x => some (word x)) hsame

theorem applyIndexed_signExtend (hle : width ≤ wide) (hwide : wide ≤ limit) :
    applyIndexed "sign_extend" [wide - width] [bits width a] =
      some (bits wide (signExtend width wide a)) := by
  obtain ⟨more, rfl⟩ := Nat.exists_eq_add_of_le hle
  have hsigned := signed_eq hw (BitVec.ofNat width a)
  rw [toNat_ofNat hw ha] at hsigned
  rw [Nat.add_sub_cancel_left, signExtend, hsigned, wrap_eq hwide, bits_toNat]
  rfl

theorem applyIndexed_rotateLeft (hpos : 1 ≤ width) (count : Nat) :
    applyIndexed "rotate_left" [count % width] [bits width a] =
      some (bits width (rol width a count)) := by
  have hrotate := rol_eq hw hpos (BitVec.ofNat width a) count
  rw [toNat_ofNat hw ha] at hrotate
  show some (word ((BitVec.ofNat width a).rotateLeft (count % width))) = _
  rw [hrotate, bits_toNat, BitVec.rotateLeft, BitVec.rotateLeftAux, Nat.mod_mod]

theorem applyIndexed_rotateRight (hpos : 1 ≤ width) (count : Nat) :
    applyIndexed "rotate_right" [count % width] [bits width a] =
      some (bits width (ror width a count)) := by
  have hrotate := ror_eq hw hpos (BitVec.ofNat width a) count
  rw [toNat_ofNat hw ha] at hrotate
  show some (word ((BitVec.ofNat width a).rotateRight (count % width))) = _
  rw [hrotate, bits_toNat, BitVec.rotateRight, BitVec.rotateRightAux, Nat.mod_mod]

end

theorem apply_choice (c : Bool) (width a b : Nat) :
    apply "ite" [truth c, bits width a, bits width b] = some (bits width (if c then a else b)) := by
  cases c <;> exact dif_pos ⟨rfl, rfl⟩

theorem apply_select (array : BitVec index → BitVec element) (place : BitVec index) :
    apply "select" [⟨.array index element, array⟩, word place] = some (word (array place)) :=
  dif_pos ⟨rfl, rfl⟩

theorem apply_store (array : BitVec index → BitVec element) (place : BitVec index)
    (x : BitVec element) :
    apply "store" [⟨.array index element, array⟩, word place, word x] =
      some ⟨.array index element, fun k => if k = place then x else array k⟩ :=
  dif_pos ⟨rfl, rfl, rfl⟩

end Smt

namespace SExpr

open Smt (Interpretation bits)

variable {declared : Interpretation} {a b found : Smt.Value} {op : String}

/-! Terms. -/

theorem value_zero : (atom "#b0").value declared = some (bits 1 0) := rfl

theorem value_one : (atom "#b1").value declared = some (bits 1 1) := rfl

theorem value_literal {value : Nat} (hwidth : Formula.WordWidth width) (h : value < modulus width) :
    (literal value width).value declared = some (bits width value) := by
  have hlegal : 0 < width ∧ value < 2 ^ width := ⟨hwidth.1, modulus_eq hwidth.2 ▸ h⟩
  show Smt.literal [atom ("bv" ++ toString value), atom (toString width)] = _
  simp only [Smt.literal, Smt.numberAfter?_append, Smt.numeral?_toString, Option.bind_eq_bind,
    Option.bind_some, if_pos hlegal]
  rfl

theorem value_app (hop : op ≠ "_") {args : List SExpr} {found : List Smt.Value}
    (hargs : values declared args = some found) :
    (app op args).value declared = Smt.apply op found := by
  rw [app, value, if_neg hop, hargs, Option.bind_some]

theorem value_indexed {indices : List Nat} {found : Smt.Value}
    (hterm : term.value declared = some found) :
    (list [indexed op indices, term]).value declared = Smt.applyIndexed op indices [found] := by
  rw [indexed, value, Smt.indexed?_numerals, Option.bind_some]
  simp only [values, hterm, Option.bind_eq_bind, Option.bind_some]

theorem values_one (h : term.value declared = some found) :
    values declared [term] = some [found] := by
  simp only [values, h, Option.bind_eq_bind, Option.bind_some]

theorem values_two (hfirst : first.value declared = some a)
    (hsecond : second.value declared = some b) : values declared [first, second] = some [a, b] := by
  rw [values, hfirst, values_one hsecond]
  rfl

theorem values_three {third : SExpr} {c : Smt.Value} (hfirst : first.value declared = some a)
    (hsecond : second.value declared = some b) (hthird : third.value declared = some c) :
    values declared [first, second, third] = some [a, b, c] := by
  rw [values, hfirst, values_two hsecond hthird]
  rfl

end SExpr

namespace Formula

open SExpr Smt

/-! Rotations by a count that is not a numeral. -/

section

variable {declared : Interpretation} {width a count : Nat} {operand amount : SExpr}

theorem arith_value (op : ArithOp) (hw : width ≤ limit) (hrol : op ≠ .rol)
    (hror : op ≠ .ror) (ha : a < modulus width) (hcount : count < modulus width)
    (hoperand : operand.value declared = some (bits width a))
    (hamount : amount.value declared = some (bits width count)) :
    (app op.smtName [operand, amount]).value declared =
      some (bits width (op.apply width a count)) := by
  have hname : op.smtName ≠ "_" := by cases op <;> decide
  rw [value_app hname (values_two hoperand hamount), apply_arith hw ha hcount hrol hror]

/-- Two shifts by the count modulo the width and by what is left of the width. -/
theorem rotationSmt_value (first second : ArithOp) (hw : WordWidth width)
    (hfirst : first = .shl ∨ first = .lshr) (hsecond : second = .shl ∨ second = .lshr)
    (ha : a < modulus width) (hcount : count < modulus width)
    (hoperand : operand.value declared = some (bits width a))
    (hamount : amount.value declared = some (bits width count)) :
    (rotationSmt first.smtName second.smtName width operand amount).value declared =
      some (bits width (or width (first.apply width a (count % width))
        (second.apply width a (width - count % width)))) := by
  have hfull := width_lt_modulus hw.2
  have hmod : count % width < width := Nat.mod_lt _ hw.1
  have hplaces := arith_value .urem hw.2 (by decide) (by decide) hcount hfull hamount
    (value_literal hw hfull)
  rw [show ArithOp.urem.apply = urem from rfl, urem_width hw.2 hw.1] at hplaces
  have hrest := arith_value .sub hw.2 (by decide) (by decide) hfull
    (lt_trans hmod hfull) (value_literal hw hfull) hplaces
  rw [show ArithOp.sub.apply = sub from rfl, width_sub hw.2 hmod.le] at hrest
  have hone := arith_value first hw.2 (by rintro rfl; simp at hfirst)
    (by rintro rfl; simp at hfirst) ha (lt_trans hmod hfull) hoperand hplaces
  have htwo := arith_value second hw.2 (by rintro rfl; simp at hsecond)
    (by rintro rfl; simp at hsecond) ha (lt_of_le_of_lt (Nat.sub_le _ _) hfull) hoperand hrest
  exact arith_value .or hw.2 (by decide) (by decide) (first.apply_lt _ _ _)
    (second.apply_lt _ _ _) hone htwo

end

/-! Formulas with a sort. -/

/-- No condition chooses between arrays, and all memory arrays have an index of
`width` bits. -/
def Printable (width : Nat) : Formula → Prop
  | constant _ _ | var _ _ => True
  | arith _ left right | compare _ left right => left.Printable width ∧ right.Printable width
  | unary _ operand | extract _ _ operand => operand.Printable width
  | zeroExtend _ operand | signExtend _ operand => operand.Printable width
  | concat high low => high.Printable width ∧ low.Printable width
  | ite cond onTrue onFalse =>
    onTrue.isArray = false ∧ cond.Printable width ∧ onTrue.Printable width ∧
      onFalse.Printable width
  | memory index => index = width
  | select array index => array.Printable width ∧ index.Printable width
  | store array index value =>
    array.Printable width ∧ index.Printable width ∧ value.Printable width

/-- The index of a select or a store is a word, so what has a sort has memory arrays
with an index that a word can have. -/
theorem Formed.wellFormed {scope : Scope} (h : f.Formed scope) (hprint : f.Printable width)
    (hword : f.isArray = false ∨ WordWidth f.width) : f.WellFormed scope := by
  induction f with
  | constant | var => exact h.range
  | memory => exact hword.resolve_left (by simp [isArray])
  | arith _ _ _ hx hy | compare _ _ _ hx hy | concat _ _ hx hy =>
    have hl := h.lawful
    exact ⟨hl, hx (h.operand (by simp)) hprint.1 (.inl hl.2.1),
      hy (h.operand (by simp)) hprint.2 (.inl hl.2.2)⟩
  | unary _ _ hx =>
    have hl := h.lawful
    exact ⟨hl, hx (h.operand (by simp)) hprint (.inl hl)⟩
  | extract _ _ _ hx | zeroExtend _ _ hx | signExtend _ _ hx =>
    have hl := h.lawful
    exact ⟨hl, hx (h.operand (by simp)) hprint (.inl hl.2.2)⟩
  | ite _ _ _ hx hy hz =>
    have hl := h.lawful
    obtain ⟨hwords, hc, ht, hf⟩ := hprint
    exact ⟨hl, hx (h.operand (by simp)) hc (.inl hl.2.1),
      hy (h.operand (by simp)) ht (.inl hwords),
      hz (h.operand (by simp)) hf (.inl (hl.2.2.2 ▸ hwords))⟩
  | select _ _ hx hy =>
    have hl := h.lawful
    have hindex := hy (h.operand (by simp)) hprint.2 (.inl hl.2.1)
    exact ⟨hl, hx (h.operand (by simp)) hprint.1 (.inr (hl.2.2 ▸ hindex.width_range)), hindex⟩
  | store _ _ _ hx hy hz =>
    have hl := h.lawful
    have hindex := hy (h.operand (by simp)) hprint.2.1 (.inl hl.2.1)
    exact ⟨hl, hx (h.operand (by simp)) hprint.1
      (.inr (hl.2.2.1 ▸ hindex.width_range)), hindex,
      hz (h.operand (by simp)) hprint.2.2 (.inl hl.2.2.2.2)⟩

end Formula

/-- The declarations of a scope: every variable is a bit-vector of its width, and the
memory an array from indices of `width` bits to bytes. They stand for the values of a
valuation; an index above 64 bits counts by its low 64. -/
def Scope.interpretation (scope : Scope) (width : Nat) (v : Valuation) : Smt.Interpretation :=
  fun name =>
    if name = "memory" then
      some ⟨.array width 8, fun index => BitVec.ofNat 8 (v.byte index.toNat.toUInt64).toNat⟩
    else (Smt.numberAfter? "SymVar_" name).bind fun id =>
      (scope id).map fun size => Smt.bits size (v.var id)

namespace Formula

open SExpr Smt

theorem varName_ne {id : Nat} {c : Char} {text : List Char} (hc : c ≠ 'S') :
    varName id ≠ String.ofList (c :: text) := by
  intro h
  have hlist := congrArg String.toList h
  rw [varName, String.toList_append, String.toList_ofList, String.toList_ofList] at hlist
  exact hc (List.cons.inj hlist).1.symm

/-- What the term of a formula stands for: a word for the bit-vector with its value,
an array for the function that has its bytes. -/
def element (v : Valuation) (f : Formula) : Value :=
  if f.isArray then
    ⟨.array f.width 8, fun index => BitVec.ofNat 8 (f.readArray v index.toNat)⟩
  else bits f.width (f.eval v)

theorem element_word (h : f.isArray = false) : f.element v = bits f.width (f.eval v) := by
  rw [element, if_neg (by simp [h])]

theorem element_array (h : f.isArray = true) :
    f.element v = ⟨.array f.width 8, fun index => BitVec.ofNat 8 (f.readArray v index.toNat)⟩ := by
  rw [element, if_pos h]

section

variable {scope : Scope} {v : Valuation} {width : Nat}

theorem var_value {id size : Nat} (h : (var id size).WellFormed scope) :
    (var id size).toSmt.value (scope.interpretation width v) = some (bits size (v.var id)) := by
  have hzero : varName id ≠ "#b0" := varName_ne (c := '#') (by decide)
  have hone : varName id ≠ "#b1" := varName_ne (c := '#') (by decide)
  have hmemory : varName id ≠ "memory" := varName_ne (c := 'm') (by decide)
  have hfound : scope.interpretation width v (varName id) = some (bits size (v.var id)) := by
    rw [Scope.interpretation, if_neg hmemory, varName, numberAfter?_append, Option.bind_some, h.2,
      Option.map_some]
  rw [toSmt, SExpr.value, symbol, if_neg hzero, if_neg hone, hfound, Option.filter_some]
  exact if_pos (decide_eq_true h.1.1)

theorem memory_value (h : 0 < width) :
    (memory width).toSmt.value (scope.interpretation width v) =
      some ((memory width).element v) := by
  have hlegal : (Ty.array width 8).Legal := ⟨h, by decide⟩
  exact if_pos (decide_eq_true hlegal)

/-- The operators that the theory has by their names. -/
theorem toSmt_arith (hrol : op ≠ .rol) (hror : op ≠ .ror) (left right : Formula) :
    (arith op left right).toSmt = .app op.smtName [left.toSmt, right.toSmt] := by
  cases op with
  | rol => exact absurd rfl hrol
  | ror => exact absurd rfl hror
  | _ => rfl

theorem rotation_value {declared : Interpretation} (hop : op = .rol ∨ op = .ror)
    {left right : Formula} (hw : WordWidth left.width) {a b : Nat} (ha : a < modulus left.width)
    (hb : b < modulus left.width) (hleft : left.toSmt.value declared = some (bits left.width a))
    (hright : right.toSmt.value declared = some (bits left.width b))
    (hconstant : ∀ amount, right.constant? = some amount → amount = b) :
    (arith op left right).toSmt.value declared =
      some (bits left.width (op.apply left.width a b)) := by
  have hx := toNat_ofNat hw.2 ha
  rcases hop with rfl | rfl
  · rw [toSmt]
    split
    · next amount heq =>
      rw [value_indexed hleft, applyIndexed_rotateLeft hw.2 ha hw.1, hconstant amount heq]
      rfl
    · have hshifts := rotationSmt_value .shl .lshr hw (.inl rfl) (.inr rfl) ha hb hleft hright
      have hsame := rol_eq_shifts hw.2 hw.1 (BitVec.ofNat left.width a) b
      rw [hx] at hsame
      exact hshifts.trans (congrArg (fun n => some (bits left.width n)) hsame.symm)
  · rw [toSmt]
    split
    · next amount heq =>
      rw [value_indexed hleft, applyIndexed_rotateRight hw.2 ha hw.1, hconstant amount heq]
      rfl
    · have hshifts := rotationSmt_value .lshr .shl hw (.inr rfl) (.inl rfl) ha hb hleft hright
      have hsame := ror_eq_shifts hw.2 hw.1 (BitVec.ofNat left.width a) b
      rw [hx] at hsame
      exact hshifts.trans (congrArg (fun n => some (bits left.width n)) hsame.symm)

theorem toSmt_value (hv : v.Fits scope) (hf : f.WellFormed scope) (hprint : f.Printable width) :
    f.toSmt.value (scope.interpretation width v) = some (f.element v) := by
  induction f with
  | constant value size => exact value_literal hf.1 hf.2
  | var id size => exact var_value hf
  | memory size =>
    obtain rfl : size = width := hprint
    exact memory_value hf.1
  | arith op left right hx hy =>
    obtain ⟨⟨hwidth, hleft, hright⟩, hfl, hfr⟩ := hf
    have ha := hx hfl hprint.1
    have hb := hy hfr hprint.2
    rw [element_word hleft] at ha
    rw [element_word hright, ← hwidth] at hb
    have hlta := hfl.eval_lt hv
    have hltb := hfr.eval_lt hv
    rw [← hwidth] at hltb
    by_cases hop : op = .rol ∨ op = .ror
    · exact rotation_value hop hfl.width_range hlta hltb ha hb fun amount h =>
        (eval_of_constant? h v).symm
    · obtain ⟨hrol, hror⟩ := not_or.1 hop
      rw [toSmt_arith hrol hror]
      exact arith_value op hfl.width_range.2 hrol hror hlta hltb ha hb
  | compare op left right hx hy =>
    obtain ⟨⟨hwidth, hleft, hright⟩, hfl, hfr⟩ := hf
    have ha := hx hfl hprint.1
    have hb := hy hfr hprint.2
    rw [element_word hleft] at ha
    rw [element_word hright, ← hwidth] at hb
    have hltb := hfr.eval_lt hv
    rw [← hwidth] at hltb
    have hname : op.smtName ≠ "_" := by cases op <;> decide
    have hholds := (value_app hname (values_two ha hb)).trans
      (apply_compare hfl.width_range.2 (hfl.eval_lt hv) hltb op)
    rw [toSmt, value_app (by decide) (values_three hholds value_one value_zero), apply_choice,
      element_word rfl, eval]
    cases op.holds left.width (left.eval v) (right.eval v) <;> rfl
  | unary op operand hx =>
    obtain ⟨hword, hf⟩ := hf
    have ha := hx hf hprint
    rw [element_word hword] at ha
    have hname : op.smtName ≠ "_" := by cases op <;> decide
    rw [toSmt, value_app hname (values_one ha), apply_unary hf.width_range.2 (hf.eval_lt hv)]
    rfl
  | extract high low operand hx =>
    obtain ⟨⟨hle, hlt, hword⟩, hf⟩ := hf
    have ha := hx hf hprint
    rw [element_word hword] at ha
    rw [toSmt, value_indexed ha, applyIndexed_extract hf.width_range.2 (hf.eval_lt hv) hle hlt]
    rfl
  | concat high low hx hy =>
    obtain ⟨⟨-, hhigh, hlow⟩, hfh, hfl⟩ := hf
    have ha := hx hfh hprint.1
    have hb := hy hfl hprint.2
    rw [element_word hhigh] at ha
    rw [element_word hlow] at hb
    rw [toSmt, value_app (by decide) (values_two ha hb), apply_concat hfh.width_range.2
      (hfh.eval_lt hv) hfl.width_range.2 (hfl.eval_lt hv)]
    rfl
  | zeroExtend wide operand hx =>
    obtain ⟨⟨hle, -, hword⟩, hf⟩ := hf
    have ha := hx hf hprint
    rw [element_word hword] at ha
    rw [toSmt, value_indexed ha, applyIndexed_zeroExtend hf.width_range.2 (hf.eval_lt hv) hle]
    rfl
  | signExtend wide operand hx =>
    obtain ⟨⟨hle, hlim, hword⟩, hf⟩ := hf
    have ha := hx hf hprint
    rw [element_word hword] at ha
    rw [toSmt, value_indexed ha,
      applyIndexed_signExtend hf.width_range.2 (hf.eval_lt hv) hle hlim]
    rfl
  | ite cond onTrue onFalse hx hy hz =>
    obtain ⟨⟨hone, hcond, hwidth, hkind⟩, hfc, hft, hff⟩ := hf
    have htrue := hprint.1
    have hc := hx hfc hprint.2.1
    have ha := hy hft hprint.2.2.1
    have hb := hz hff hprint.2.2.2
    rw [element_word hcond, hone] at hc
    rw [element_word htrue] at ha
    rw [element_word (hkind ▸ htrue), ← hwidth] at hb
    have hholds : (app "=" [cond.toSmt, .atom "#b1"]).value (scope.interpretation width v) =
        some (truth (CompareOp.eq.holds 1 (cond.eval v) 1)) :=
      (value_app (by decide) (values_two hc value_one)).trans
        (apply_compare (by decide) (hone ▸ hfc.eval_lt hv) (by decide) .eq)
    rw [toSmt, value_app (by decide) (values_three hholds ha hb), apply_choice,
      element_word (f := cond.ite onTrue onFalse) rfl, eval]
    rcases hfc.eval_bit hv hone with hbit | hbit <;> rw [hbit] <;> rfl
  | select array index hx hy =>
    obtain ⟨⟨harray, hindex, hwidth⟩, hfa, hfi⟩ := hf
    have ha := hx hfa hprint.1
    have hi := hy hfi hprint.2
    rw [element_array harray] at ha
    rw [element_word hindex, hwidth] at hi
    have hlt := hfi.eval_lt hv
    rw [hwidth] at hlt
    rw [toSmt, value_app (by decide) (values_two ha hi), bits, apply_select,
      toNat_ofNat hfa.width_range.2 hlt]
    rfl
  | store array index value hx hy hz =>
    obtain ⟨⟨harray, hindex, hwidth, hbyte, hword⟩, hfa, hfi, hfv⟩ := hf
    have ha := hx hfa hprint.1
    have hi := hy hfi hprint.2.1
    have hb := hz hfv hprint.2.2
    rw [element_array harray] at ha
    rw [element_word hindex, hwidth] at hi
    rw [element_word hword, hbyte] at hb
    have hlt := hfi.eval_lt hv
    rw [hwidth] at hlt
    have hplace (k : BitVec array.width) :
        k = BitVec.ofNat array.width (index.eval v) ↔ index.eval v = k.toNat := by
      rw [← BitVec.toNat_inj, toNat_ofNat hfa.width_range.2 hlt, eq_comm]
    have hbytes : (fun k : BitVec array.width =>
        if k = BitVec.ofNat array.width (index.eval v) then BitVec.ofNat 8 (value.eval v)
        else BitVec.ofNat 8 (array.readArray v k.toNat)) =
        fun k => BitVec.ofNat 8 ((array.store index value).readArray v k.toNat) := by
      funext k
      by_cases hk : index.eval v = k.toNat
      · rw [if_pos ((hplace k).2 hk), readArray, if_pos hk]
      · rw [if_neg (mt (hplace k).1 hk), readArray, if_neg hk]
    rw [toSmt, value_app (by decide) (values_three ha hi hb), bits, bits, apply_store, hbytes]
    rfl

end

end Formula

/-- **The text of a formula means what the formula computes.** A word that a context
gave out, with no choice between arrays in it and one index width for all memory
arrays, is printed as a text that reads as one term. With every variable declared as
a bit-vector of its width and the memory as an array of bytes, the term has the sort
of a bit-vector of the formula's width, and its value is the value of the formula,
whatever the variables and the memory hold. -/
theorem text_means_value {ctx : Context} {given : List Formula} (h : ctx.InUse given)
    {f : Formula} (hf : f ∈ given) (hword : f.isArray = false) {width : Nat}
    (hprint : f.Printable width) :
    ∃ term, SExpr.read f.text = some term ∧ ∀ v : Valuation, v.Fits ctx.scope →
      ∃ x : BitVec f.width,
        term.value (ctx.scope.interpretation width v) = some ⟨.bitVec f.width, x⟩ ∧
          x.toNat = f.value v := by
  have hformed := h.formed.2 f hf
  have hwell := hformed.wellFormed hprint (.inl hword)
  refine ⟨f.toSmt, f.read_text, fun v hv => ⟨BitVec.ofNat f.width (f.eval v), ?_, ?_⟩⟩
  · rw [Formula.toSmt_value hv hwell hprint, Formula.element_word hword]
    rfl
  · rw [Smt.toNat_ofNat hwell.width_range.2 (hwell.eval_lt hv), Formula.value_eq_eval]

/-- A byte read back at a symbolic address, rotated by itself. -/
theorem text_means_value_rotation :
    ∃ (ctx : Context) (given : List Formula) (f : Formula), ctx.InUse given ∧ f ∈ given ∧
      f.text = "(bvor (bvshl (select (store memory SymVar_1 SymVar_0) (_ bv300 16)) " ++
        "(bvurem SymVar_0 (_ bv8 8))) " ++
        "(bvlshr (select (store memory SymVar_1 SymVar_0) (_ bv300 16)) " ++
        "(bvsub (_ bv8 8) (bvurem SymVar_0 (_ bv8 8)))))" ∧
      ∃ term, SExpr.read f.text = some term ∧ ∃ x : BitVec f.width,
        term.value (ctx.scope.interpretation 16 (ctx.valuation fun _ => 0)) =
          some ⟨.bitVec f.width, x⟩ ∧ x.toNat = 0x1c := by
  let byte : Formula := .select (.store (.memory 16) (.var 1 16) (.var 0 8)) (.constant 300 16)
  have one := Context.InUse.start.request (.newVariable 8 none 0x83) ⟨false, false⟩ trivial
    (f := .var 0 8) (by decide +kernel)
  have two := one.request (.newVariable 16 none 300) ⟨false, false⟩ trivial
    (f := .var 1 16) (by decide +kernel)
  have three := two.request (.memoryArray 16) ⟨false, false⟩ trivial
    (f := .memory 16) (by decide +kernel)
  have four := three.request (.constant 300 16) ⟨false, false⟩ trivial
    (f := .constant 300 16) (by decide +kernel)
  have five := four.request (.call (.store (.memory 16) (.var 1 16) (.var 0 8))) ⟨false, false⟩
    (f := .store (.memory 16) (.var 1 16) (.var 0 8))
    (by simp [Request.About]) (by decide +kernel)
  have six := five.request
    (.call (.select (.store (.memory 16) (.var 1 16) (.var 0 8)) (.constant 300 16)))
    ⟨false, false⟩ (f := byte)
    (by simp [Request.About]) (by decide +kernel)
  have seven := six.request (.call (.arith .rol byte (.var 0 8))) ⟨false, false⟩
    (f := .arith .rol byte (.var 0 8))
    (by simp [Request.About]) (by decide +kernel)
  obtain ⟨term, hread, hvalue⟩ := text_means_value seven (f := .arith .rol byte (.var 0 8))
    (by simp) rfl (by simp [byte, Formula.Printable] : Formula.Printable 16 _)
  obtain ⟨x, hterm, hx⟩ := hvalue _ (seven.formed.1.fits fun _ => 0)
  exact ⟨_, _, _, seven, by simp, by decide +kernel, term, hread, x, hterm,
    hx.trans (by decide +kernel)⟩

end Concolic
