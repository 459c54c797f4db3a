/-!
Positions in a source text. Lines and columns both count from one, and a
column counts the bytes before it in its line, so that a position names a
byte of the text and not a glyph.
-/

namespace Octet

/-- A line and a column of a source text. The default position, at line zero,
lies in no text and belongs to trees that were not read from one. -/
structure Position where
  line : Nat
  column : Nat
  deriving DecidableEq, Repr

instance : Inhabited Position := ⟨⟨0, 0⟩⟩

namespace Position

def start : Position := ⟨1, 1⟩

/-- The position `n` bytes further on in the line. -/
def right (n : Nat) (p : Position) : Position := { p with column := p.column + n }

def text (p : Position) : String :=
  "line " ++ toString p.line ++ ", column " ++ toString p.column

/-- A message about what stands at the position. -/
def locate (p : Position) (message : String) : String := "At " ++ p.text ++ ": " ++ message

end Position

end Octet
