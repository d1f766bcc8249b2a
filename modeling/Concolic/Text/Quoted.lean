import Concolic.Text.Printable

/-
  Quoted text: a name as it appears inside an error message, in double quotes,
  with an escape for each character that would not show as itself.
-/

namespace Concolic.Text

/-- A code point as hexadecimal digits in braces. -/
def escapeCode (c : Char) : List Char := ['\\', 'u', '\x7b'] ++ Nat.toDigits 16 c.toNat ++ ['\x7d']

/-- A character as it stands between quotes. -/
def escape (c : Char) : List Char :=
  if c = '"' then ['\\', '"']
  else if c = '\\' then ['\\', '\\']
  else if c = '\n' then ['\\', 'n']
  else if c = '\r' then ['\\', 'r']
  else if c = '\t' then ['\\', 't']
  else if c = '\x00' then ['\\', '0']
  else if isPrintable c then [c]
  else escapeCode c

/-- The text in double quotes. -/
def quote (text : String) : String := String.ofList (['"'] ++ text.toList.flatMap escape ++ ['"'])

end Concolic.Text
