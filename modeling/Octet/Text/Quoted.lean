import Octet.Text.Printable

/-!
Texts in quotes. A quoted text shows on one line what a text holds: quotes,
backslashes and the usual controls get a letter after a backslash, and every
other character without a glyph of its own its code point in braces.
-/

namespace Octet.Text

/-- A code point in hexadecimal, between braces. -/
def codePoint (c : Char) : List Char :=
  "\\u\x7b".toList ++ Nat.toDigits 16 c.toNat ++ "\x7d".toList

/-- The character as it stands between quotes. -/
def escape (c : Char) : List Char :=
  if c = '"' then ['\\', '"']
  else if c = '\\' then ['\\', '\\']
  else if c = '\n' then ['\\', 'n']
  else if c = '\r' then ['\\', 'r']
  else if c = '\t' then ['\\', 't']
  else if c.toNat = 0 then ['\\', '0']
  else if isShown c then [c]
  else codePoint c

def quote (s : String) : String :=
  "\"" ++ String.ofList (s.toList.flatMap escape) ++ "\""

end Octet.Text
