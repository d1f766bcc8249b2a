import Std.Data.String.ToNat
import Concolic.Formula.Smt

/-
  Reading terms back.

  A text is cut into parentheses and words, and the words and lists are collected on
  a stack of open lists (`SExpr.read`). The text of a symbolic expression whose words
  are free of blanks and parentheses reads as that expression (`read_text`), and the
  terms of formulas are such expressions (`toSmt_clean`): so the text of a formula is
  its term, and nothing of the term is lost in printing (`Formula.read_text`).
-/

namespace Concolic

open SExpr

variable {head : String}

namespace SExpr

inductive Token where
  | opening
  | closing
  | word (text : String)

def isBlank (c : Char) : Bool := c == ' ' || c == '\n' || c == '\t' || c == '\r'

def inWord (c : Char) : Bool := c != '(' && c != ')' && !isBlank c

/-- The word collected so far, its last character first. -/
def flush : List Char → List Token
  | [] => []
  | last :: before => [.word (String.ofList (last :: before).reverse)]

/-- The tokens of a text after the characters of a word. -/
def tokens (word : List Char) : List Char → List Token
  | [] => flush word
  | c :: rest =>
    if c = '(' then flush word ++ .opening :: tokens [] rest
    else if c = ')' then flush word ++ .closing :: tokens [] rest
    else if isBlank c then flush word ++ tokens [] rest
    else tokens (c :: word) rest

/-- Collects expressions on a stack of open lists, the last item of each first. -/
def collect : List Token → List (List SExpr) → Option SExpr
  | [], [[item]] => some item
  | .opening :: rest, stack => collect rest ([] :: stack)
  | .closing :: rest, items :: parent :: stack =>
    collect rest ((list items.reverse :: parent) :: stack)
  | .word text :: rest, items :: stack => collect rest ((atom text :: items) :: stack)
  | _, _ => none

/-- The expression of a text, if it is the text of one. -/
def read (text : String) : Option SExpr := collect (tokens [] text.toList) [[]]

/-! Texts of expressions. -/

/-- A word that is read as one: it has characters, and none that ends a word. -/
def CleanWord (text : String) : Prop := text.toList ≠ [] ∧ ∀ c ∈ text.toList, inWord c = true

mutual

/-- Every word of the expression is read as one. -/
def Clean : SExpr → Prop
  | atom text => CleanWord text
  | list items => CleanItems items

def CleanItems : List SExpr → Prop
  | [] => True
  | item :: rest => item.Clean ∧ CleanItems rest

end

mutual

/-- The tokens of an expression. -/
def toTokens : SExpr → List Token
  | atom text => [.word text]
  | list items => .opening :: (itemTokens items ++ [.closing])

def itemTokens : List SExpr → List Token
  | [] => []
  | item :: rest => item.toTokens ++ itemTokens rest

end

/-- No word goes on into this text. -/
def Delimited (rest : List Char) : Prop := ∀ c ∈ rest.head?, inWord c = false

theorem delimited_cons {c : Char} (rest : List Char) (h : inWord c = false) :
    Delimited (c :: rest) := by
  intro d hd
  obtain rfl : c = d := by simpa using hd
  exact h

/-- The characters of a word are collected. -/
theorem tokens_word (chars : List Char) (hchars : ∀ c ∈ chars, inWord c = true)
    (word rest : List Char) :
    tokens word (chars ++ rest) = tokens (chars.reverse ++ word) rest := by
  induction chars generalizing word with
  | nil => rfl
  | cons c chars ih =>
    have hc : inWord c = true := hchars c (by simp)
    simp only [inWord, Bool.and_eq_true, bne_iff_ne, Bool.not_eq_true'] at hc
    obtain ⟨⟨hopening, hclosing⟩, hblank⟩ := hc
    rw [List.cons_append, tokens, if_neg hopening, if_neg hclosing, if_neg (by simp [hblank]),
      ih fun d hd => hchars d (by simp [hd])]
    simp

theorem tokens_flush (word : List Char) {rest : List Char} (h : Delimited rest) :
    tokens word rest = flush word ++ tokens [] rest := by
  cases rest with
  | nil => simp [tokens, flush]
  | cons c rest =>
    have hc : inWord c = false := h c rfl
    unfold tokens
    simp only [inWord, Bool.and_eq_false_iff, bne_eq_false_iff_eq, Bool.not_eq_false'] at hc
    rcases hc with (rfl | rfl) | hblank
    · rw [if_pos rfl, if_pos rfl]
      rfl
    · rw [if_neg (by decide), if_pos rfl, if_neg (by decide), if_pos rfl]
      rfl
    · by_cases hopening : c = '('
      · subst hopening
        cases hblank
      · by_cases hclosing : c = ')'
        · subst hclosing
          cases hblank
        · rw [if_neg hopening, if_neg hclosing, if_pos hblank, if_neg hopening, if_neg hclosing,
            if_pos hblank]
          rfl

theorem tokens_cleanWord {text : String} (htext : CleanWord text) {rest : List Char}
    (h : Delimited rest) : tokens [] (text.toList ++ rest) = .word text :: tokens [] rest := by
  rw [tokens_word _ htext.2, List.append_nil, tokens_flush _ h]
  have hne : text.toList.reverse ≠ [] := by simpa using htext.1
  obtain ⟨last, before, hword⟩ := List.exists_cons_of_ne_nil hne
  have htext' : (last :: before).reverse = text.toList := by
    rw [← hword, List.reverse_reverse]
  rw [hword, flush, htext', String.ofList_toList]
  rfl

theorem tokens_blank (rest : List Char) : tokens [] (' ' :: rest) = tokens [] rest := rfl

theorem tokens_opening (rest : List Char) : tokens [] ('(' :: rest) = .opening :: tokens [] rest :=
  rfl

theorem tokens_closing (rest : List Char) : tokens [] (')' :: rest) = .closing :: tokens [] rest :=
  rfl

mutual

/-- The tokens of the text of an expression are those of the expression. -/
theorem tokens_text (e : SExpr) (he : e.Clean) {rest : List Char} (h : Delimited rest) :
    tokens [] (e.text.toList ++ rest) = e.toTokens ++ tokens [] rest := by
  match e with
  | atom text => exact tokens_cleanWord he h
  | list items =>
    have htext : (list items).text.toList ++ rest =
        '(' :: ((textItems items).toList ++ ')' :: rest) := by
      simp [text]
    rw [htext, tokens_opening, tokens_textItems items he, toTokens]
    simp

theorem tokens_textItems (items : List SExpr) (hitems : CleanItems items) (rest : List Char) :
    tokens [] ((textItems items).toList ++ ')' :: rest) =
      itemTokens items ++ .closing :: tokens [] rest := by
  match items with
  | [] =>
    simp only [textItems, itemTokens]
    exact tokens_closing rest
  | [item] =>
    rw [textItems, tokens_text item hitems.1 (delimited_cons rest rfl), tokens_closing]
    simp [itemTokens]
  | item :: second :: others =>
    have htext : (textItems (item :: second :: others)).toList ++ ')' :: rest =
        item.text.toList ++ ' ' :: ((textItems (second :: others)).toList ++ ')' :: rest) := by
      simp [textItems]
    rw [htext, tokens_text item hitems.1 (delimited_cons _ rfl), tokens_blank,
      tokens_textItems (second :: others) hitems.2]
    simp [itemTokens]

end

mutual

/-- The tokens of an expression become one item of the innermost open list. -/
theorem collect_toTokens (e : SExpr) (rest : List Token) (items : List SExpr)
    (stack : List (List SExpr)) :
    collect (e.toTokens ++ rest) (items :: stack) = collect rest ((e :: items) :: stack) := by
  match e with
  | atom text => rfl
  | list inner =>
    rw [toTokens, List.cons_append, List.append_assoc]
    show collect (itemTokens inner ++ ([.closing] ++ rest)) ([] :: items :: stack) = _
    rw [collect_itemTokens inner, List.append_nil]
    show collect rest ((list inner.reverse.reverse :: items) :: stack) = _
    rw [List.reverse_reverse]

theorem collect_itemTokens (inner : List SExpr) (rest : List Token) (items : List SExpr)
    (stack : List (List SExpr)) :
    collect (itemTokens inner ++ rest) (items :: stack) =
      collect rest ((inner.reverse ++ items) :: stack) := by
  match inner with
  | [] => rfl
  | item :: others =>
    rw [itemTokens, List.append_assoc, collect_toTokens item, collect_itemTokens others]
    simp

end

/-- An expression is read back from its text. -/
theorem read_text {e : SExpr} (h : e.Clean) : read e.text = some e := by
  have htokens : tokens [] (e.text.toList ++ []) = e.toTokens ++ tokens [] [] :=
    tokens_text e h fun c hc => by cases hc
  rw [List.append_nil] at htokens
  rw [read, htokens, collect_toTokens]
  rfl

/-! Terms. -/

instance (text : String) : Decidable (CleanWord text) :=
  decidable_of_iff (text.toList.isEmpty = false ∧ text.toList.all inWord = true)
    (and_congr List.isEmpty_eq_false_iff List.all_eq_true)

theorem inWord_of_isDigit {c : Char} (h : c.isDigit = true) : inWord c = true := by
  have hne : ∀ d : Char, d.isDigit = false → c ≠ d := by
    intro d hd heq
    rw [heq, hd] at h
    cases h
  simp [inWord, isBlank, hne '(' rfl, hne ')' rfl, hne ' ' rfl, hne '\n' rfl, hne '\t' rfl,
    hne '\r' rfl]

theorem inWord_toString {n : Nat} {c : Char} (h : c ∈ (toString n).toList) : inWord c = true := by
  have hdigits : (toString n).toList = Nat.toDigits 10 n := by
    show n.repr.toList = _
    rw [Nat.repr_eq_ofList_toDigits, String.toList_ofList]
  rw [hdigits] at h
  exact inWord_of_isDigit (Nat.isDigit_of_mem_toDigits (by decide) (by decide) h)

theorem cleanWord_toString (n : Nat) : CleanWord (toString n) := by
  refine ⟨?_, fun c hc => inWord_toString hc⟩
  show n.repr.toList ≠ []
  rw [Nat.repr_eq_ofList_toDigits, String.toList_ofList]
  exact Nat.toDigits_ne_nil

theorem cleanWord_append (h : CleanWord head) (n : Nat) : CleanWord (head ++ toString n) := by
  refine ⟨?_, fun c hc => ?_⟩
  · rw [String.toList_append]
    exact List.append_ne_nil_of_left_ne_nil h.1 _
  · rw [String.toList_append, List.mem_append] at hc
    rcases hc with hc | hc
    · exact h.2 c hc
    · exact inWord_toString hc

theorem cleanItems_numerals (indices : List Nat) :
    CleanItems (indices.map fun index => atom (toString index)) := by
  induction indices with
  | nil => trivial
  | cons index indices ih => exact ⟨cleanWord_toString index, ih⟩

theorem app_clean {args : List SExpr} (h : CleanWord head) (hargs : CleanItems args) :
    (app head args).Clean := ⟨h, hargs⟩

theorem indexed_clean (h : CleanWord head) (indices : List Nat) : (indexed head indices).Clean :=
  app_clean (by decide) ⟨h, cleanItems_numerals indices⟩

theorem literal_clean (value width : Nat) : (literal value width).Clean :=
  indexed_clean (cleanWord_append (by decide) value) [width]

end SExpr

namespace Formula

open SExpr (CleanWord)

theorem rotationSmt_clean {first second : String} (hfirst : CleanWord first)
    (hsecond : CleanWord second) (width : Nat) {operand count : SExpr} (hoperand : operand.Clean)
    (hcount : count.Clean) : (rotationSmt first second width operand count).Clean := by
  have hfull := literal_clean width width
  have hamount : (app "bvurem" [count, .literal width width]).Clean :=
    app_clean (by decide) ⟨hcount, hfull, trivial⟩
  have hrest : (app "bvsub" [.literal width width,
      .app "bvurem" [count, .literal width width]]).Clean :=
    app_clean (by decide) ⟨hfull, hamount, trivial⟩
  exact app_clean (by decide) ⟨app_clean hfirst ⟨hoperand, hamount, trivial⟩,
    app_clean hsecond ⟨hoperand, hrest, trivial⟩, trivial⟩

/-- The words of the term of a formula are read as words. -/
theorem toSmt_clean (f : Formula) : f.toSmt.Clean := by
  have hone : (atom "#b1").Clean := (by decide : CleanWord "#b1")
  have hzero : (atom "#b0").Clean := (by decide : CleanWord "#b0")
  induction f with
  | constant value width => exact literal_clean value width
  | var id width => exact cleanWord_append (by decide) id
  | memory width => exact (by decide : CleanWord "memory")
  | arith op left right hx hy =>
    cases op with
    | rol =>
      unfold toSmt
      split
      · exact ⟨indexed_clean (by decide) _, hx, trivial⟩
      · exact rotationSmt_clean (by decide) (by decide) _ hx hy
    | ror =>
      unfold toSmt
      split
      · exact ⟨indexed_clean (by decide) _, hx, trivial⟩
      · exact rotationSmt_clean (by decide) (by decide) _ hx hy
    | _ => exact app_clean (by decide) ⟨hx, hy, trivial⟩
  | compare op left right hx hy =>
    have hname : CleanWord op.smtName := by cases op <;> decide
    exact app_clean (by decide) ⟨app_clean hname ⟨hx, hy, trivial⟩, hone, hzero, trivial⟩
  | unary op operand hx =>
    have hname : CleanWord op.smtName := by cases op <;> decide
    exact app_clean hname ⟨hx, trivial⟩
  | extract high low operand hx => exact ⟨indexed_clean (by decide) _, hx, trivial⟩
  | concat high low hx hy => exact app_clean (by decide) ⟨hx, hy, trivial⟩
  | zeroExtend width operand hx | signExtend width operand hx =>
    exact ⟨indexed_clean (by decide) _, hx, trivial⟩
  | ite cond onTrue onFalse hc hx hy =>
    exact app_clean (by decide) ⟨app_clean (by decide) ⟨hc, hone, trivial⟩, hx, hy, trivial⟩
  | select array index hx hy => exact app_clean (by decide) ⟨hx, hy, trivial⟩
  | store array index value hx hy hz => exact app_clean (by decide) ⟨hx, hy, hz, trivial⟩

/-- The text of a formula is that of its term. -/
theorem read_text (f : Formula) : SExpr.read f.text = some f.toSmt := SExpr.read_text f.toSmt_clean

end Formula

end Concolic
