import Octet.Text.Split

/-!
Source texts as lines. Every text has at least one line, and a text that ends
in a newline ends in an empty line.
-/

namespace Octet.Source

def lines (cs : List Char) : List (List Char) := Text.split '\n' cs

/-- The line of a text with the given number, counting from one. -/
def lineAt? (source : String) (number : Nat) : Option String :=
  if number = 0 then none
  else (lines source.toList)[number - 1]?.map String.ofList

/-- The number of bytes of a line. -/
def byteLength (line : List Char) : Nat :=
  line.foldr (fun c n => c.utf8Size + n) 0

def leadingSpaces (line : List Char) : Nat :=
  (line.takeWhile (· = ' ')).length

end Octet.Source
