import Octet.Token.Basic

/-!
The tokens that are still to be read. The token that ends the text is kept
apart from those in front of it, because reading never goes past it: at the
end the cursor stays where it is.
-/

namespace Octet

/-- Why tokens are not a program. -/
inductive ParseError where
  /-- The token is of none of the kinds that could stand here. -/
  | unexpected (expected : List Token.Kind) (got : Token.Kind) (position : Position)
  /-- The numeral does not spell a byte. -/
  | outOfRange (numeral : String) (position : Position)
  deriving DecidableEq, Repr

namespace ParseError

def position : ParseError → Position
  | unexpected _ _ p => p
  | outOfRange _ p => p

/-- The kinds that could stand somewhere, as messages list them. -/
def kindList : List Token.Kind → String
  | [k] => k.text
  | ks => "one of " ++ ", ".intercalate (ks.map Token.Kind.text)

def explanation : ParseError → String
  | unexpected expected got _ =>
      "Unexpected token. Expected " ++ kindList expected ++ " but received " ++ got.text ++ "."
  | outOfRange numeral _ => "Integer literal " ++ numeral ++ " does not fit in 8 bits."

def message (e : ParseError) : String := e.position.locate e.explanation

end ParseError

/-- Tokens from some place on, and the token that ends them. -/
structure Cursor where
  ahead : List Token
  last : Token
  last_kind : last.kind = .eof

namespace Cursor

/-- The tokens of a list, to be read from the front. If the list does not end
in the token that ends a text, one is supplied at the position of its last
token. -/
def ofTokens (tokens : List Token) : Cursor :=
  match tokens.getLast? with
  | none => ⟨[], Token.textEnd Position.start, rfl⟩
  | some t =>
      if h : t.kind = .eof then ⟨tokens.dropLast, t, h⟩
      else ⟨tokens, Token.textEnd t.position, rfl⟩

def size (c : Cursor) : Nat := c.ahead.length

def current (c : Cursor) : Token := c.ahead.headD c.last

def kind (c : Cursor) : Token.Kind := c.current.kind

def peek (n : Nat) (c : Cursor) : Token.Kind :=
  (c.ahead[n]?.map Token.kind).getD .eof

def advance (c : Cursor) : Cursor := { c with ahead := c.ahead.tail }

def unexpected (expected : List Token.Kind) (c : Cursor) : ParseError :=
  .unexpected expected c.kind c.current.position

def expect (expected : List Token.Kind) (c : Cursor) : Except ParseError (Token × Cursor) :=
  if c.kind ∈ expected then .ok (c.current, c.advance) else .error (c.unexpected expected)

/-- Reading on from a token in front of the end leaves fewer of them. -/
theorem size_advance_lt {c : Cursor} (h : c.kind ≠ .eof) : c.advance.size < c.size := by
  rcases c with ⟨ahead, last, hl⟩
  cases ahead with
  | nil => exact absurd hl h
  | cons t ts => simp [advance, size]

end Cursor

end Octet
