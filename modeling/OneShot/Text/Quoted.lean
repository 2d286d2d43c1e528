import OneShot.Text.Printable

/-!
# Quoted text

A string between double quotes, as it is shown inside structured text. A double quote, a backslash
and the usual control characters have short escapes; any other character that does not print on
its own is written by its code point, `\u{1b}`.
-/

namespace OneShot.Text.Quoted

/-- The hexadecimal digits of `n`, in lower case and without leading zeros. -/
def hex (n : Nat) : List Char := Nat.toDigits 16 n

/-- The written form of one character. -/
def encodeChar (c : Char) : List Char :=
  if c = '"' then ['\\', '"']
  else if c = '\\' then ['\\', '\\']
  else if c = '\n' then ['\\', 'n']
  else if c = '\r' then ['\\', 'r']
  else if c = '\t' then ['\\', 't']
  else if c = '\x00' then ['\\', '0']
  else if Printable.standsAlone c then [c]
  else ['\\', 'u', '\x7b'] ++ hex c.toNat ++ ['\x7d']

/-- The written form of the characters of a string, without the quotes around it. -/
def encode (cs : List Char) : List Char := cs.flatMap encodeChar

/-- A string in double quotes. -/
def quote (s : String) : String := "\"" ++ String.ofList (encode s.toList) ++ "\""

end OneShot.Text.Quoted
