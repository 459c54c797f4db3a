import Octet.Source.Position
import Octet.Text.Quoted
import Octet.Token.Kind

/-!
Tokens: a kind, the text it was read from, and the position where that text
begins.
-/

namespace Octet

structure Token where
  kind : Token.Kind
  value : String
  position : Position
  deriving DecidableEq, Repr

namespace Token

/-- The token on one line, with its text in quotes. -/
def text (t : Token) : String :=
  t.kind.text ++ " " ++ Text.quote t.value ++ " at " ++ t.position.text

/-- The number of spaces that make one step of indentation. -/
def indentWidth : Nat := 4

def lineEnd (p : Position) : Token := ⟨.newline, "\n", p⟩

def textEnd (p : Position) : Token := ⟨.eof, "", p⟩

/-- A step of indentation, in or out, at the beginning of a line. -/
def layoutStep (kind : Kind) (line : Nat) : Token :=
  ⟨kind, String.ofList (List.replicate indentWidth ' '), ⟨line, 1⟩⟩

end Token

end Octet
