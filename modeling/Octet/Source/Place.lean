import Octet.Source.Position

/-!
A place in a text: what is still to be read from it, and where that begins.
Moving on counts bytes and stays on its line, since whoever moves past a
newline knows that a new line begins there.
-/

namespace Octet

/-- A text from some place on, with the position of that place. -/
structure Place where
  rest : List Char
  position : Position
  deriving DecidableEq, Repr

namespace Place

def ofText (source : String) : Place := ⟨source.toList, Position.start⟩

/-- The characters left after the first `n` bytes. -/
def dropBytes : Nat → List Char → List Char
  | 0, cs => cs
  | _ + 1, [] => []
  | n + 1, c :: cs => dropBytes (n + 1 - c.utf8Size) cs

/-- The place `n` bytes further on in the line. -/
def advance (n : Nat) (p : Place) : Place :=
  ⟨dropBytes n p.rest, p.position.right n⟩

def atEnd (p : Place) : Bool := p.rest.isEmpty

def remainder (p : Place) : String := String.ofList p.rest

end Place

end Octet
