import Octet.Token.Kind

/-!
Rules that are chosen by the kind of the next token: those for the factors of
an expression and those for the statements that start with a keyword. A table
says which rule each kind leads to, so that a grammar without any of these
rules can be spoken of as well.
-/

namespace Octet

inductive FactorRule where
  | unaryPlus
  | negation
  | grouping
  | atom
  deriving DecidableEq, Repr

inductive StmtRule where
  | ifThen
  | print
  | declare
  | ret
  deriving DecidableEq, Repr

/-- Which rule the kind of the next token leads to. -/
structure Dispatch where
  factor? : Token.Kind → Option FactorRule
  stmt? : Token.Kind → Option StmtRule

namespace Dispatch

def empty : Dispatch := ⟨fun _ => none, fun _ => none⟩

def standard : Dispatch where
  factor?
    | .plus => some .unaryPlus
    | .minus => some .negation
    | .leftParen => some .grouping
    | .number | .identifier | .kwTrue | .kwFalse => some .atom
    | _ => none
  stmt?
    | .kwIf => some .ifThen
    | .kwPrint => some .print
    | .kwLet => some .declare
    | .kwReturn => some .ret
    | _ => none

end Dispatch

end Octet
