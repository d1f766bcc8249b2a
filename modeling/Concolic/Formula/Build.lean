import Std.Data.ExtTreeMap
import Concolic.Error
import Concolic.Formula.Eval

/-
  Building formulas.

  A context holds the formulas built so far, each once, and the variables. The
  constructors below check widths, then apply the rules in force, and enter
  what they build into the pool:

  * folding computes an operator whose operands are all constants;
  * identities simplify by algebraic laws, and put a constant operand of a
    commutative operator on the right.

  Entering a formula gives back the formula (`Pool.intern_fst`), so the result
  of a constructor depends on the rules and the operands and on nothing else in
  the context. A constructor that fails leaves in the pool what it had built.

  The number of a variable has no bound here. A `VariableId` has 32 bits, so the two
  agree as long as fewer than 2^32 variables are made.
-/

namespace Concolic

/-- A variable of the formulas. -/
structure Variable where
  id : Nat
  width : Nat
  /-- A name given by whoever made the variable. -/
  nickname : Option String
  comment : String := ""
  /-- The value taken when formulas are evaluated. -/
  value : Nat
  deriving DecidableEq, Repr

/-- The formulas that a context holds, each at a place of its own. The place is
what identifies the object that stands for the formula. -/
structure Pool where
  /-- The formulas, numbered from zero on as they come in. -/
  nodes : Std.ExtTreeMap Nat Formula := ∅
  /-- The places of the formulas, by digest. -/
  places : Std.ExtTreeMap UInt64 (List Nat) := ∅

namespace Pool

/-- The places of the formulas with the digest of `f`. -/
def bucket (pool : Pool) (f : Formula) : List Nat := pool.places[f.digest]?.getD []

/-- The place of the formula equal to `f`. -/
def place? (pool : Pool) (f : Formula) : Option Nat :=
  (pool.bucket f).find? fun i => decide (pool.nodes[i]? = some f)

/-- The number of formulas. -/
def count (pool : Pool) : Nat := pool.nodes.size

/-- Enters a formula, and gives back the one object that stands for it. -/
def intern (pool : Pool) (f : Formula) : Formula × Pool :=
  match pool.place? f with
  | some i => (pool.nodes[i]?.getD f, pool)
  | none =>
    (f, {
      nodes := pool.nodes.insert pool.count f,
      places := pool.places.insert f.digest (pool.count :: pool.bucket f) })

/-- Entering a formula gives back an equal one. -/
theorem intern_fst (pool : Pool) (f : Formula) : (pool.intern f).1 = f := by
  unfold intern
  cases h : pool.place? f with
  | none => rfl
  | some i =>
    have hi : pool.nodes[i]? = some f := by simpa using List.find?_some h
    simp [hi]

end Pool

/-- The formulas and variables made so far. -/
structure Context where
  pool : Pool := {}
  vars : Array Variable := #[]

namespace Context

/-- The value of a variable; zero for one that does not exist. -/
def variableValue (ctx : Context) (id : Nat) : Nat :=
  match ctx.vars[id]? with
  | some entry => entry.value
  | none => 0

/-- The current values of the variables, over given memory bytes. -/
def valuation (ctx : Context) (byte : Address → UInt8) : Valuation :=
  { var := ctx.variableValue, byte }

/-- The value of a formula over a memory of zeros. -/
def evaluate (ctx : Context) (f : Formula) : Nat := f.value (ctx.valuation fun _ => 0)

def findVariable (ctx : Context) (id : Nat) : Except Error Variable :=
  match ctx.vars[id]? with
  | some entry => .ok entry
  | none => .error (.unknownVariable id)

/-- Changes a variable. -/
def updateVariable (ctx : Context) (id : Nat) (change : Variable → Variable) :
    Except Error Context :=
  match ctx.vars[id]? with
  | some entry => .ok { ctx with vars := ctx.vars.setIfInBounds id (change entry) }
  | none => .error (.unknownVariable id)

/-- Gives a variable the low bits of a value. -/
def setVariableValue (ctx : Context) (id value : Nat) : Except Error Context :=
  ctx.updateVariable id fun entry => { entry with value := Word.truncate entry.width value }

def setVariableComment (ctx : Context) (id : Nat) (comment : String) : Except Error Context :=
  ctx.updateVariable id fun entry => { entry with comment }

end Context

/-- The rules in force while formulas are built. -/
structure Rules where
  /-- Compute operators on constants. -/
  folding : Bool
  /-- Apply algebraic identities. -/
  identities : Bool

/-- The construction of a formula: under fixed rules it extends a context, or
fails. -/
abbrev Build := ReaderT Rules (EStateM Error Context)

namespace Build

/-- Enters a formula into the pool. -/
def intern (f : Formula) : Build Formula := fun _ ctx =>
  let (member, pool) := ctx.pool.intern f
  .ok member { ctx with pool }

/-- The constant of the low bits of a value. -/
def constant (value width : Nat) : Build Formula :=
  if 1 ≤ width ∧ width ≤ Word.limit then
    intern (.constant (Word.truncate width value) width)
  else throw (.constantWidth width)

/-- A one-bit constant. -/
def flag (value : Bool) : Build Formula := constant value.toNat 1

def zero (width : Nat) : Build Formula := constant 0 width

def ones (width : Nat) : Build Formula := constant (Word.ones width) width

/-- The difference of two widths, or of a width and a number of bits. -/
def minus (left right : Nat) : Build Nat :=
  if right ≤ left then pure (left - right) else throw (.invalidWidth (.difference left right))

theorem minus_of_le {left right : Nat} (h : right ≤ left) :
    minus left right = pure (left - right) := if_pos h

/-- Makes a variable. Variables are numbered from zero on. -/
def newVariable (width : Nat) (nickname : Option String) (value : Nat) : Build Formula := do
  if 1 ≤ width ∧ width ≤ Word.limit then
    let id := (← get).vars.size
    modify fun ctx => { ctx with
      vars := ctx.vars.push
        { id, width, nickname, value := Word.truncate width value } }
    intern (.var id width)
  else throw (.invalidWidth (.variableWidth width))

/-- The formula of an existing variable. -/
def variableFormula (id : Nat) : Build Formula := do
  match (← get).findVariable id with
  | .ok entry => intern (.var id entry.width)
  | .error error => throw error

/-- What an identity leaves of an operator: an operand, or a word. -/
inductive Reduct where
  | operand (f : Formula)
  | word (value : Nat)

/-- The identities of the binary operators. -/
def identity? (op : ArithOp) (left right : Formula) : Option Reduct :=
  let c := right.constant?
  let all := Word.ones left.width
  match op with
  | .add => if c = some 0 then some (.operand left) else none
  | .sub | .xor =>
    if c = some 0 then some (.operand left)
    else if left = right then some (.word 0)
    else none
  | .or =>
    if c = some 0 ∨ left = right then some (.operand left)
    else if c = some all then some (.word all)
    else none
  | .and =>
    if c = some 0 then some (.word 0)
    else if c = some all ∨ left = right then some (.operand left)
    else none
  | .mul =>
    if c = some 0 then some (.word 0)
    else if c = some 1 then some (.operand left)
    else none
  | .udiv | .sdiv => if c = some 1 then some (.operand left) else none
  | .urem | .srem => if c = some 1 then some (.word 0) else none
  | .shl | .lshr =>
    match c with
    | some 0 => some (.operand left)
    | some count => if count ≥ left.width then some (.word 0) else none
    | none => none
  | .ashr => if c = some 0 then some (.operand left) else none
  | .rol | .ror =>
    match c with
    | some count => if count % left.width = 0 then some (.operand left) else none
    | none => none

/-- A binary operator on operands that go together, a constant of a commutative
operator on the right. Constants on the right of nested equal operators are
merged into one. -/
def combine (op : ArithOp) (left right : Formula) : Build Formula := do
  let rules ← read
  match rules.folding, left.constant?, right.constant? with
  | true, some a, some b => constant (op.apply left.width a b) left.width
  | _, _, _ =>
    if rules.identities then
      match identity? op left right with
      | some (.operand f) => pure f
      | some (.word value) => constant value left.width
      | none =>
        match left, right.constant? with
        | .arith inner operand factor, some b =>
          match factor.constant? with
          | some a =>
            if inner = op ∧ op.commutative then do
              let merged ← constant (op.apply left.width a b) left.width
              combine op operand merged
            else intern (.arith op left right)
          | none => intern (.arith op left right)
        | _, _ => intern (.arith op left right)
    else intern (.arith op left right)

def arith (op : ArithOp) (left right : Formula) : Build Formula := do
  if left.width ≠ right.width ∨ left.isArray ∨ right.isArray then
    throw (.invalidWidth (.operands op.smtName left.width right.width))
  else if (← read).identities ∧ op.commutative ∧ left.constant?.isSome ∧ right.constant?.isNone then
    combine op right left
  else combine op left right

def add : Formula → Formula → Build Formula := arith .add
def sub : Formula → Formula → Build Formula := arith .sub
def mul : Formula → Formula → Build Formula := arith .mul
def udiv : Formula → Formula → Build Formula := arith .udiv
def sdiv : Formula → Formula → Build Formula := arith .sdiv
def urem : Formula → Formula → Build Formula := arith .urem
def srem : Formula → Formula → Build Formula := arith .srem
def and : Formula → Formula → Build Formula := arith .and
def or : Formula → Formula → Build Formula := arith .or
def xor : Formula → Formula → Build Formula := arith .xor
def shl : Formula → Formula → Build Formula := arith .shl
def lshr : Formula → Formula → Build Formula := arith .lshr
def ashr : Formula → Formula → Build Formula := arith .ashr
def rol : Formula → Formula → Build Formula := arith .rol
def ror : Formula → Formula → Build Formula := arith .ror

/-- A unary operator. The identities cancel an operator applied twice. -/
def unary (op : UnaryOp) (operand : Formula) : Build Formula := do
  if operand.isArray then throw (.invalidWidth .arrayOperand)
  else
    let rules ← read
    match rules.folding, operand.constant? with
    | true, some a => constant (op.apply operand.width a) operand.width
    | _, _ =>
      match rules.identities, operand with
      | true, .unary inner f => if inner = op then pure f else intern (.unary op operand)
      | _, _ => intern (.unary op operand)

def not : Formula → Build Formula := unary .not
def neg : Formula → Build Formula := unary .neg

/-- The identities of the comparison of a formula with a constant, if it is one;
for no identity, the comparison as it is. -/
def compareConstant (op : CompareOp) (f : Formula) (c : Option Nat) (asIs : Build Formula) :
    Build Formula :=
  match op, c with
  | .eq, some 1 | .ne, some 0 => if f.width = 1 then pure f else asIs
  | .eq, some 0 | .ne, some 1 => if f.width = 1 then not f else asIs
  | .ult, some 0 => flag false
  | .uge, some 0 => flag true
  | _, _ => asIs

/-- The identities of the comparisons. The constant of an equality may stand on
either side. -/
def reduceCompare (op : CompareOp) (left right : Formula) : Build Formula :=
  let asIs := intern (.compare op left right)
  if left = right then flag op.reflexive
  else if (op = .eq ∨ op = .ne) ∧ left.constant?.isSome ∧ right.constant?.isNone then
    compareConstant op right left.constant? asIs
  else compareConstant op left right.constant? asIs

def compare (op : CompareOp) (left right : Formula) : Build Formula := do
  if left.width ≠ right.width ∨ left.isArray ∨ right.isArray then
    throw (.invalidWidth (.operands op.smtName left.width right.width))
  else
    let rules ← read
    match rules.folding, left.constant?, right.constant? with
    | true, some a, some b => flag (op.holds left.width a b)
    | _, _, _ =>
      if rules.identities then reduceCompare op left right
      else intern (.compare op left right)

def eq : Formula → Formula → Build Formula := compare .eq
def ne : Formula → Formula → Build Formula := compare .ne

/-- A construction from one operand: `folded` from the word of a constant, under
the identities `reduced`, and `asIs` otherwise. -/
def fromOperand (f : Formula) (folded : Nat → Build Formula) (reduced asIs : Build Formula) :
    Build Formula := do
  let rules ← read
  match rules.folding, f.constant? with
  | true, some a => folded a
  | _, _ => if rules.identities then reduced else asIs

/-- The bits from `low` to `high`. The identities go straight to the part of the
formula that the bits come from. -/
def extract (high low : Nat) (f : Formula) : Build Formula :=
  let asIs := intern (.extract high low f)
  if high < low ∨ high ≥ f.width ∨ f.isArray then
    throw (.invalidWidth (.slice high low f.width))
  else
    let part :=
      match f with
      | .extract _ base operand => extract (base + high) (base + low) operand
      | .concat upper lower =>
        if high < lower.width then extract high low lower
        else if low ≥ lower.width then
          extract (high - lower.width) (low - lower.width) upper
        else asIs
      | .zeroExtend _ operand =>
        if high < operand.width then extract high low operand
        else if low ≥ operand.width then zero (high - low + 1)
        else asIs
      | .signExtend _ operand =>
        if high < operand.width then extract high low operand
        else asIs
      | _ => asIs
    fromOperand f (fun a => constant (a >>> low) (high - low + 1))
      (if low = 0 ∧ high + 1 = f.width then pure f else part) asIs

/-- Number of the top bit of a part of `width` bits, in 32-bit arithmetic. -/
def topIndex (width : Nat) : Nat := if width = 0 then 0xffffffff else width - 1

/-- The low `width` bits. -/
def truncate (f : Formula) (width : Nat) : Build Formula := extract (topIndex width) 0 f

/-- Zeros above the formula, up to `width` bits. -/
def zeroExtend (width : Nat) (f : Formula) : Build Formula :=
  let asIs := intern (.zeroExtend width f)
  if width < f.width ∨ width > Word.limit ∨ f.isArray then
    throw (.invalidWidth (.extension "zero_extend" f.width width))
  else
    let inner :=
      match f with
      | .zeroExtend _ operand => zeroExtend width operand
      | _ => asIs
    fromOperand f (fun a => constant a width) (if f.width = width then pure f else inner) asIs

/-- Copies of the sign above the formula, up to `width` bits. -/
def signExtend (width : Nat) (f : Formula) : Build Formula :=
  let asIs := intern (.signExtend width f)
  if width < f.width ∨ width > Word.limit ∨ f.isArray then
    throw (.invalidWidth (.extension "sign_extend" f.width width))
  else
    let inner :=
      match f with
      | .signExtend _ operand => signExtend width operand
      | _ => asIs
    fromOperand f (fun a => constant (Word.signExtend f.width width a) width)
      (if f.width = width then pure f else inner) asIs

/-- The formula with zeros above it or cut to `width` bits. -/
def resize (f : Formula) (width : Nat) : Build Formula :=
  if f.width < width then zeroExtend width f
  else if f.width > width then truncate f width
  else pure f

/-- One word above another. The identities join adjacent bits of one formula. -/
def concat (high low : Formula) : Build Formula := do
  if high.width + low.width > Word.limit ∨ high.isArray ∨ low.isArray then
    throw (.invalidWidth (.operands "concat" high.width low.width))
  else
    let rules ← read
    match rules.folding, high.constant?, low.constant? with
    | true, some a, some b => constant ((a <<< low.width) ||| b) (high.width + low.width)
    | _, _, _ =>
      if rules.identities then
        if high.constant? = some 0 then zeroExtend (high.width + low.width) low
        else
          match high, low with
          | .extract top middle f, .extract middle' bottom f' =>
            if f = f' ∧ middle = middle' + 1 then extract top bottom f
            else intern (.concat high low)
          | _, _ => intern (.concat high low)
      else intern (.concat high low)

/-- The concatenation of parts, the most significant first. -/
def concatMany : List Formula → Build Formula
  | [] => throw (.invalidWidth .noParts)
  | first :: rest => rest.foldlM concat first

/-- A choice by a one-bit condition, between words or between arrays. -/
def ite (cond onTrue onFalse : Formula) : Build Formula := do
  if cond.width ≠ 1 ∨ cond.isArray ∨ onTrue.width ≠ onFalse.width ∨
      onTrue.isArray ≠ onFalse.isArray then
    throw (.invalidWidth (.choice cond.width onTrue.width onFalse.width))
  else
    let rules ← read
    let allConstant := cond.constant?.isSome ∧ onTrue.constant?.isSome ∧ onFalse.constant?.isSome
    match cond.constant? with
    | some c =>
      if rules.identities ∨ (rules.folding ∧ allConstant) then
        pure (if c ≠ 0 then onTrue else onFalse)
      else intern (.ite cond onTrue onFalse)
    | none =>
      if rules.identities then
        if onTrue = onFalse then pure onTrue
        else if onTrue.width = 1 ∧ onTrue.constant? = some 1 ∧ onFalse.constant? = some 0 then
          pure cond
        else intern (.ite cond onTrue onFalse)
      else intern (.ite cond onTrue onFalse)

/-- The initial memory with index words of `width` bits. -/
def memoryArray (width : Nat) : Build Formula := intern (.memory width)

/-- A select with the stores passed over that cannot be the one read: those at
another constant index. A store at the very index gives its value. -/
def reduceSelect (index array : Formula) : Build Formula :=
  match array with
  | .store inner place value =>
    if place = index then pure value
    else
      match place.constant?, index.constant? with
      | some a, some b =>
        if a ≠ b then reduceSelect index inner
        else intern (.select array index)
      | _, _ => intern (.select array index)
  | _ => intern (.select array index)

/-- The byte of an array at an index. -/
def select (array index : Formula) : Build Formula := do
  if ¬ array.isArray ∨ index.isArray ∨ index.width ≠ array.width then
    throw (.invalidWidth (.selection index.width array.width))
  else if (← read).identities then reduceSelect index array
  else intern (.select array index)

/-- An array changed at one index. -/
def store (array index value : Formula) : Build Formula :=
  if ¬ array.isArray ∨ index.isArray ∨ index.width ≠ array.width ∨ value.width ≠ 8 ∨
      value.isArray then
    throw (.invalidWidth (.storing index.width value.width array.width))
  else intern (.store array index value)

end Build

end Concolic
