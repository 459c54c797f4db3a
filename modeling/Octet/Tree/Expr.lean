import Octet.Source.Position

/-!
Expressions. Every expression keeps a position for messages about it: that of
its operator if it has one, else that of its first token. Parentheses and
unary plus leave no trace.
-/

namespace Octet

inductive Comparison where
  | equal
  | notEqual
  deriving DecidableEq, Repr

inductive Expr where
  | number (value : UInt8) (position : Position)
  | boolean (value : Bool) (position : Position)
  | var (name : String) (position : Position)
  | negate (operand : Expr) (position : Position)
  | add (left right : Expr) (position : Position)
  | compare (comparison : Comparison) (left right : Expr) (position : Position)
  | call (name : String) (arguments : List Expr) (position : Position)
  deriving Repr

namespace Expr

def position : Expr → Position
  | number _ p | boolean _ p | var _ p | negate _ p | add _ _ p | compare _ _ _ p
  | call _ _ p => p

end Expr

end Octet
