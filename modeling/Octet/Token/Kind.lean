/-!
The kinds of tokens. Keywords and punctuation have one spelling each; numbers
and identifiers have many; and four kinds stand for the layout of the text:
the end of a line, one step of indentation more or less, and the end of it
all.
-/

namespace Octet.Token

/-- What a token is, without its text and its position. -/
inductive Kind where
  | eof
  | newline
  | indent
  | dedent
  | kwDef
  | kwReturn
  | kwPrint
  | kwTrue
  | kwFalse
  | kwBool
  | kwU8
  | kwI8
  | kwVoid
  | kwLet
  | kwIf
  | colon
  | comma
  | arrow
  | leftParen
  | rightParen
  | plus
  | minus
  | equal
  | notEqual
  | assign
  | number
  | identifier
  deriving DecidableEq, Repr

namespace Kind

/-- The words that are keywords wherever they stand, with their kinds. -/
def reservedWords : List (String × Kind) :=
  [("def", kwDef), ("return", kwReturn), ("print", kwPrint), ("true", kwTrue),
    ("false", kwFalse), ("bool", kwBool), ("u8", kwU8), ("i8", kwI8), ("void", kwVoid),
    ("let", kwLet), ("if", kwIf)]

def reserved? (word : String) : Option Kind := reservedWords.lookup word

/-- The kind of a word: a keyword if it is reserved, else an identifier. -/
def ofWord (word : String) : Kind := (reserved? word).getD identifier

/-- How messages name the kind: by its spelling if it has only one. -/
def spelling : Kind → String
  | eof => "EOF"
  | newline => "\\n"
  | indent => "INDENT"
  | dedent => "DEDENT"
  | kwDef => "def"
  | kwReturn => "return"
  | kwPrint => "print"
  | kwTrue => "true"
  | kwFalse => "false"
  | kwBool => "bool"
  | kwU8 => "u8"
  | kwI8 => "i8"
  | kwVoid => "void"
  | kwLet => "let"
  | kwIf => "if"
  | colon => ":"
  | comma => ","
  | arrow => "->"
  | leftParen => "("
  | rightParen => ")"
  | plus => "+"
  | minus => "-"
  | equal => "=="
  | notEqual => "!="
  | assign => "="
  | number => "<decimal>"
  | identifier => "<identifier>"

def text (k : Kind) : String := "'" ++ k.spelling ++ "'"

end Kind

end Octet.Token
