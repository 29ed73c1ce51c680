import WordPattern.Text.Extending
import WordPattern.Text.Unprintable

/-!
# Characters in single quotes

A quoted character is legible whatever it is: the quote itself, the backslash
and the common controls have escapes of two characters, and a character that
would not show, or would join the quote before it, is given by its number.
-/

namespace WordPattern.Text

/-- Hexadecimal digits of a number, without leading zeros. -/
def hexDigits (n : Nat) : List Char := Nat.toDigits 16 n

/-- A character as it stands between single quotes. -/
def quotedBody (c : Char) : List Char :=
  if c = '\x00' then ['\\', '0']
  else if c = '\t' then ['\\', 't']
  else if c = '\r' then ['\\', 'r']
  else if c = '\n' then ['\\', 'n']
  else if c = '\x27' then ['\\', '\x27']
  else if c = '\\' then ['\\', '\\']
  else if isExtending c || isUnprintable c then
    ['\\', 'u', '\x7b'] ++ hexDigits c.toNat ++ ['\x7d']
  else [c]

/-- A character in single quotes. -/
def quoted (c : Char) : String := String.ofList ('\x27' :: quotedBody c ++ ['\x27'])

end WordPattern.Text
