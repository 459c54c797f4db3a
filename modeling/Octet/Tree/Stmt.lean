import Octet.Tree.Expr
import Octet.Tree.Ty

/-!
Statements and blocks. A statement's position is that of its first token; a
block's is where its indentation begins.
-/

namespace Octet

inductive Stmt where
  | block (body : List Stmt) (position : Position)
  /-- Runs the consequence if the condition holds. -/
  | ifThen (condition : Expr) (consequence : Stmt) (position : Position)
  | print (value : Expr) (position : Position)
  /-- Declares a variable of the innermost block and gives it a value. -/
  | declare (name : String) (type : Ty) (value : Expr) (position : Position)
  | assign (name : String) (value : Expr) (position : Position)
  /-- Ends the call of the function with a value. -/
  | ret (value : Expr) (position : Position)
  /-- Evaluates an expression and forgets its value. -/
  | evaluate (value : Expr)
  deriving Repr

namespace Stmt

def position : Stmt → Position
  | block _ p | ifThen _ _ p | print _ p | declare _ _ _ p | assign _ _ p | ret _ p => p
  | evaluate e => e.position

end Stmt

structure Block where
  body : List Stmt
  position : Position
  deriving Repr

def Block.toStmt (b : Block) : Stmt := .block b.body b.position

end Octet
