import Octet.Source.Lines
import Octet.Token.Basic

/-!
Reading the tokens of a text, line by line.

A line is cut into lexemes from left to right, the longest one first, and
spaces between lexemes mean nothing. Between two lines stands the token that
ends the first of them, and in front of a line that holds more than spaces
stand as many steps of indentation as it is deeper than the line before it, or
shallower. The first line is the exception: it begins no deeper than the text
itself, whatever spaces it starts with. The last line is another: if it holds
only spaces, it goes back to the depth of the text, so that a text that ends
in a newline closes every block it has opened.

Of the line ends that follow each other directly only the last is kept, so
that empty lines leave no trace.
-/

namespace Octet

/-- Why a text has no tokens. -/
inductive ScanError where
  /-- No lexeme starts with the character that stands here. -/
  | unrecognized (position : Position) (character : Char)
  /-- The line starts with a number of spaces that is not a whole number of
  steps. -/
  | uneven (position : Position) (spaces : Nat)
  deriving DecidableEq, Repr

namespace ScanError

def position : ScanError → Position
  | unrecognized p _ => p
  | uneven p _ => p

def explanation : ScanError → String
  | unrecognized _ c =>
      "Unrecognized syntax. There is no valid token that starts with `" ++ String.singleton c ++
        "`."
  | uneven _ n =>
      "The only whitespace that is allowed at the beginning of a line is one or more " ++
        "indentations and each must be made of four spaces. Whitespace count at this line is " ++
        toString n ++ " which is not a multiple of 4."

def message (e : ScanError) : String := e.position.locate e.explanation

end ScanError

namespace Token

def startsWord (c : Char) : Bool := c.isAlpha || c == '_'

def continuesWord (c : Char) : Bool := c.isAlphanum || c == '_'

/-- The longest lexeme that starts with the first of some characters: its kind,
and the characters that belong to it after the first. -/
def lexeme? : Char → List Char → Option (Kind × List Char)
  | '-', '>' :: _ => some (.arrow, ['>'])
  | '=', '=' :: _ => some (.equal, ['='])
  | '!', '=' :: _ => some (.notEqual, ['='])
  | '(', _ => some (.leftParen, [])
  | ')', _ => some (.rightParen, [])
  | '+', _ => some (.plus, [])
  | '-', _ => some (.minus, [])
  | '=', _ => some (.assign, [])
  | ':', _ => some (.colon, [])
  | ',', _ => some (.comma, [])
  | c, cs =>
      if c.isDigit then
        some (.number, cs.takeWhile Char.isDigit)
      else if startsWord c then
        let tail := cs.takeWhile continuesWord
        some (Kind.ofWord (String.ofList (c :: tail)), tail)
      else
        none

/-- The lexemes of a line, or of what is left of it from a position on. -/
def scanLine (position : Position) : List Char → Except ScanError (List Token)
  | [] => .ok []
  | c :: cs =>
      if c = ' ' then scanLine (position.right 1) cs
      else
        match lexeme? c cs with
        | none => .error (.unrecognized position c)
        | some (kind, tail) => do
            let more ← scanLine (position.right (1 + tail.length)) (cs.drop tail.length)
            return ⟨kind, String.ofList (c :: tail), position⟩ :: more
termination_by cs => cs.length
decreasing_by
  · simp
  · simp only [List.length_cons, List.length_drop]
    omega

/-- The steps of indentation in front of a line, and the depth that they lead
to. Lines that hold only spaces have none, but the last line of a text ends
all indentation. -/
def layout (depth number : Nat) (line : List Char) (isLast : Bool) :
    Except ScanError (List Token × Nat) :=
  let spaces := Source.leadingSpaces line
  if spaces = line.length then
    if isLast then .ok (List.replicate depth (layoutStep .dedent number), 0)
    else .ok ([], depth)
  else if spaces % indentWidth ≠ 0 then
    .error (.uneven ⟨number, 1⟩ spaces)
  else
    let deeper := spaces / indentWidth
    .ok (List.replicate (deeper - depth) (layoutStep .indent number) ++
      List.replicate (depth - deeper) (layoutStep .dedent number), deeper)

/-- The tokens from the end of a line on. The lines still to come start at the
given number, and the depth is that of the line which has just ended. -/
def scanLines (depth number : Nat) (lastEnd : Position) :
    List (List Char) → Except ScanError (List Token)
  | [] => .ok [textEnd lastEnd]
  | line :: more => do
      let (steps, deeper) ← layout depth number line more.isEmpty
      let lexemes ← scanLine ⟨number, 1⟩ line
      let rest ← scanLines deeper (number + 1) ⟨number, 1 + Source.byteLength line⟩ more
      return lineEnd lastEnd :: (steps ++ lexemes ++ rest)

/-- Keeps the last of the line ends that follow each other directly. -/
def dropEmptyLines : List Token → List Token
  | [] => []
  | [t] => [t]
  | t :: u :: ts =>
      if t.kind = .newline ∧ u.kind = .newline then dropEmptyLines (u :: ts)
      else t :: dropEmptyLines (u :: ts)

def scan (source : String) : Except ScanError (List Token) :=
  match Source.lines source.toList with
  | [] => .ok [textEnd Position.start]
  | first :: more => do
      let lexemes ← scanLine Position.start first
      let rest ← scanLines 0 2 ⟨1, 1 + Source.byteLength first⟩ more
      return dropEmptyLines (lexemes ++ rest)

end Token

end Octet
