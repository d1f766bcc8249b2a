/-
  Machine words.

  A word of `width` bits is a natural number below `2 ^ width`, and 128 bits is
  the widest word there is: a width above `Word.limit` has the values of a
  128-bit word. The operations below are the ones a formula can apply, each
  returning a word of the width it was given. Division and remainder by zero,
  and shifts by the width or more, have the values that the SMT-LIB theory of
  bit-vectors assigns to them.
-/

namespace Concolic

/-- A byte address; addresses wrap around at 64 bits. -/
abbrev Address := UInt64

namespace Word

/-- The widest word, in bits. -/
def limit : Nat := 128

/-- How many values a word of `width` bits has. -/
def modulus (width : Nat) : Nat := Nat.pow 2 (min width limit)

/-- The word whose bits are all set. -/
def ones (width : Nat) : Nat := modulus width - 1

/-- The low `width` bits of `value`. -/
def truncate (width value : Nat) : Nat := value % modulus width

/-- The word congruent to an integer. -/
def wrap (width : Nat) (value : Int) : Nat := (value % (modulus width : Int)).toNat

/-- The two's complement reading of the low `width` bits of `value`. -/
def signed (width value : Nat) : Int :=
  let low := truncate width value
  if 2 * low < modulus width then (low : Int) else (low : Int) - (modulus width : Int)

/-- The word of `width` bits with the same signed reading as the low `source`
bits of `value`, or its low bits where `width` is the smaller. -/
def signExtend (source width value : Nat) : Nat := wrap width (signed source value)

/-- Whether the top bit of a word is set. -/
def topBit (width value : Nat) : Bool := value.testBit (width - 1)

def add (width a b : Nat) : Nat := truncate width (a + b)

def sub (width a b : Nat) : Nat := wrap width ((a : Int) - (b : Int))

def mul (width a b : Nat) : Nat := truncate width (a * b)

/-- Unsigned quotient; all ones when dividing by zero. -/
def udiv (width a b : Nat) : Nat :=
  if b = 0 then ones width else truncate width (a / b)

/-- Unsigned remainder; the dividend when dividing by zero. -/
def urem (width a b : Nat) : Nat :=
  if b = 0 then truncate width a else truncate width (a % b)

/-- Signed quotient, rounded toward zero. Dividing by zero gives one for a
negative dividend and all ones for any other. -/
def sdiv (width a b : Nat) : Nat :=
  let dividend := signed width a
  let divisor := signed width b
  if divisor = 0 then truncate width (if dividend < 0 then 1 else ones width)
  else wrap width (dividend.tdiv divisor)

/-- Signed remainder, with the dividend's sign; the dividend when dividing by
zero. -/
def srem (width a b : Nat) : Nat :=
  let divisor := signed width b
  if divisor = 0 then truncate width a
  else wrap width ((signed width a).tmod divisor)

def and (width a b : Nat) : Nat := truncate width (a &&& b)

def or (width a b : Nat) : Nat := truncate width (a ||| b)

def xor (width a b : Nat) : Nat := truncate width (a ^^^ b)

/-- Left shift; zero once every bit is shifted out. -/
def shl (width a b : Nat) : Nat :=
  if b ≥ width then 0 else truncate width (a <<< b)

/-- Logical right shift; zero once every bit is shifted out. -/
def lshr (width a b : Nat) : Nat :=
  if b ≥ width then 0 else truncate width (a >>> b)

/-- Arithmetic right shift; only copies of the sign once every bit is shifted
out. -/
def ashr (width a b : Nat) : Nat :=
  if b ≥ width then (if topBit width a then ones width else 0)
  else wrap width (signed width a >>> b)

/-- Rotation to the left by `amount` places, `amount` below the width. -/
def rotate (width a amount : Nat) : Nat :=
  if amount = 0 then truncate width a
  else truncate width ((a <<< amount) ||| (a >>> (width - amount)))

/-- Left rotation by the count modulo the width. -/
def rol (width a b : Nat) : Nat := rotate width a (b % width)

/-- Right rotation by the count modulo the width. -/
def ror (width a b : Nat) : Nat := rotate width a ((width - b % width) % width)

def not (width a : Nat) : Nat := truncate width (ones width ^^^ a)

def neg (width a : Nat) : Nat := wrap width (-(a : Int))

end Word

end Concolic
