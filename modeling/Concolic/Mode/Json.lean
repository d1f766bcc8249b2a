import Concolic.Mode

/-
  Settings of the modes as JSON: an array of mode titles. Reading accepts any
  spacing and any escapes that JSON allows, and a mode also as an object with
  the title as its only key and null as its value.
-/

namespace Concolic.Modes

/-- The setting as a JSON array of titles. -/
def toJson (modes : Modes) : String :=
  "[" ++ String.intercalate "," (modes.enabled.map fun mode => "\"" ++ mode.title ++ "\"") ++ "]"

/-- The text after JSON white space. -/
def skipBlanks (chars : List Char) : List Char :=
  chars.dropWhile fun c => c == ' ' || c == '\n' || c == '\r' || c == '\t'

/-- The value of a hexadecimal digit. -/
def hexDigit? (c : Char) : Option Nat :=
  if '0' ≤ c ∧ c ≤ '9' then some (c.toNat - '0'.toNat)
  else if 'a' ≤ c ∧ c ≤ 'f' then some (c.toNat - 'a'.toNat + 10)
  else if 'A' ≤ c ∧ c ≤ 'F' then some (c.toNat - 'A'.toNat + 10)
  else none

/-- The character that a single letter after a backslash stands for. -/
def letterEscape? (c : Char) : Option Char :=
  if c = '"' ∨ c = '\\' ∨ c = '/' then some c
  else if c = 'b' then some '\x08'
  else if c = 'f' then some '\x0c'
  else if c = 'n' then some '\n'
  else if c = 'r' then some '\r'
  else if c = 't' then some '\t'
  else none

/-- The contents of a JSON string after its opening quote, and the text after
its closing quote. -/
def readString : List Char → Option (List Char × List Char)
  | [] => none
  | '"' :: rest => some ([], rest)
  | '\\' :: 'u' :: a :: b :: c :: d :: rest => do
    let a ← hexDigit? a
    let b ← hexDigit? b
    let c ← hexDigit? c
    let d ← hexDigit? d
    let (text, rest) ← readString rest
    pure (Char.ofNat (((a * 16 + b) * 16 + c) * 16 + d) :: text, rest)
  | '\\' :: letter :: rest => do
    let c ← letterEscape? letter
    let (text, rest) ← readString rest
    pure (c :: text, rest)
  | c :: rest =>
    if c = '\\' ∨ c.toNat < 0x20 then none
    else do
      let (text, rest) ← readString rest
      pure (c :: text, rest)

/-- A string that is the title of a mode. -/
def readTitle (chars : List Char) : Option (Mode × List Char) :=
  match skipBlanks chars with
  | '"' :: rest => do
    let (title, rest) ← readString rest
    let mode ← Mode.all.find? fun mode => mode.title.toList == title
    pure (mode, rest)
  | _ => none

/-- One element of the array: a title, or an object from a title to null. -/
def readMode (chars : List Char) : Option (Mode × List Char) :=
  match skipBlanks chars with
  | '\x7b' :: rest => do
    let (mode, rest) ← readTitle rest
    match skipBlanks rest with
    | ':' :: rest =>
      match skipBlanks rest with
      | 'n' :: 'u' :: 'l' :: 'l' :: rest =>
        match skipBlanks rest with
        | '\x7d' :: rest => pure (mode, rest)
        | _ => none
      | _ => none
    | _ => none
  | chars => readTitle chars

/-- The elements that follow the first one, up to the closing bracket, and the
text after it. There are at most as many as `fuel`. -/
def readRest (modes : Modes) : (fuel : Nat) → List Char → Option (Modes × List Char)
  | 0, _ => none
  | fuel + 1, chars =>
    match skipBlanks chars with
    | ']' :: rest => some (modes, rest)
    | ',' :: rest => do
      let (mode, rest) ← readMode rest
      readRest (modes.set mode true) fuel rest
    | _ => none

/-- The setting that a JSON text describes. -/
def ofJson? (text : String) : Option Modes := do
  let chars := text.toList
  match skipBlanks chars with
  | '[' :: rest =>
    match skipBlanks rest with
    | ']' :: rest => if (skipBlanks rest).isEmpty then some allOff else none
    | rest =>
      let (mode, rest) ← readMode rest
      let (modes, rest) ← readRest (allOff.set mode true) (chars.length + 1) rest
      if (skipBlanks rest).isEmpty then some modes else none
  | _ => none

end Concolic.Modes
