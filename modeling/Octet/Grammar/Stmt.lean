import Octet.Grammar.Expr
import Octet.Tree.Stmt

/-!
The rules for types, statements and blocks:

    type       := "void" | "bool" | "i8" | "u8" | identifier
    block      := indent statement* dedent
    statement  := "if" expression ":" newline block
                | "print" "(" expression ")" newline
                | "let" identifier ":" type "=" expression newline
                | "return" expression newline
                | identifier "=" expression newline
                | expression newline
-/

namespace Octet.Grammar

def typeStart : List Token.Kind := [.kwVoid, .kwBool, .kwI8, .kwU8, .identifier]

def typeOf (token : Token) : Ty :=
  match token.kind with
  | .kwVoid => .void
  | .kwBool => .bool
  | .kwI8 => .i8
  | .kwU8 => .u8
  | _ => .named token.value

def type (c : Cursor) : Outcome Ty c.size :=
  (c.takeAny typeStart).andThen fun token c₁ h₁ =>
  .done (typeOf token) c₁ h₁

def printStmt (d : Dispatch) (c : Cursor) : Outcome Stmt c.size :=
  (c.take .kwPrint).andThen fun start c₁ h₁ =>
  (c₁.take .leftParen).within h₁ fun _ c₂ h₂ _ =>
  (expr d c₂).within h₂ fun value c₃ h₃ _ =>
  (c₃.take .rightParen).within h₃ fun _ c₄ h₄ _ =>
  (c₄.take .newline).within h₄ fun _ c₅ h₅ _ =>
  .done (.print value start.position) c₅ h₅

def declareStmt (d : Dispatch) (c : Cursor) : Outcome Stmt c.size :=
  (c.take .kwLet).andThen fun start c₁ h₁ =>
  (c₁.take .identifier).within h₁ fun name c₂ h₂ _ =>
  (c₂.take .colon).within h₂ fun _ c₃ h₃ _ =>
  (type c₃).within h₃ fun ty c₄ h₄ _ =>
  (c₄.take .assign).within h₄ fun _ c₅ h₅ _ =>
  (expr d c₅).within h₅ fun value c₆ h₆ _ =>
  (c₆.take .newline).within h₆ fun _ c₇ h₇ _ =>
  .done (.declare name.value ty value start.position) c₇ h₇

def assignStmt (d : Dispatch) (c : Cursor) : Outcome Stmt c.size :=
  (c.take .identifier).andThen fun name c₁ h₁ =>
  (c₁.take .assign).within h₁ fun _ c₂ h₂ _ =>
  (expr d c₂).within h₂ fun value c₃ h₃ _ =>
  (c₃.take .newline).within h₃ fun _ c₄ h₄ _ =>
  .done (.assign name.value value name.position) c₄ h₄

def retStmt (d : Dispatch) (c : Cursor) : Outcome Stmt c.size :=
  (c.take .kwReturn).andThen fun start c₁ h₁ =>
  (expr d c₁).within h₁ fun value c₂ h₂ _ =>
  (c₂.take .newline).within h₂ fun _ c₃ h₃ _ =>
  .done (.ret value start.position) c₃ h₃

def evaluateStmt (d : Dispatch) (c : Cursor) : Outcome Stmt c.size :=
  (expr d c).andThen fun value c₁ h₁ =>
  (c₁.take .newline).within h₁ fun _ c₂ h₂ _ =>
  .done (.evaluate value) c₂ h₂

mutual

/-- A statement, by the rule that its first token leads to. Two tokens tell an
assignment from an expression. -/
def stmt (d : Dispatch) (c : Cursor) : Outcome Stmt c.size :=
  match d.stmt? c.kind with
  | some .ifThen => ifStmt d c
  | some .print => printStmt d c
  | some .declare => declareStmt d c
  | some .ret => retStmt d c
  | none =>
      if c.kind = .identifier ∧ c.peek 1 = .assign then assignStmt d c
      else evaluateStmt d c
termination_by 4 * c.size + 1

def ifStmt (d : Dispatch) (c : Cursor) : Outcome Stmt c.size :=
  (c.take .kwIf).andThen fun start c₁ h₁ =>
  (expr d c₁).within h₁ fun condition c₂ h₂ _ =>
  (c₂.take .colon).within h₂ fun _ c₃ h₃ _ =>
  (c₃.take .newline).within h₃ fun _ c₄ h₄ _ =>
  (block d c₄).within h₄ fun body c₅ h₅ _ =>
  .done (.ifThen condition body.toStmt start.position) c₅ h₅
termination_by 4 * c.size

def block (d : Dispatch) (c : Cursor) : Outcome Block c.size :=
  (c.take .indent).andThen fun start c₁ h₁ =>
  (stmts d c₁ h₁).andThen fun body c₂ h₂ =>
  (c₂.take .dedent).within h₂ fun _ c₃ h₃ _ =>
  .done ⟨body, start.position⟩ c₃ h₃
termination_by 4 * c.size

/-- Statements up to the end of their block. -/
def stmts (d : Dispatch) (c : Cursor) {n : Nat} (h : c.size < n) : Outcome (List Stmt) n :=
  if c.kind = .dedent then
    .done [] c h
  else
    (stmt d c).within h fun first c₁ h₁ _ =>
    (stmts d c₁ h₁).andThen fun more c₂ h₂ =>
    .done (first :: more) c₂ h₂
termination_by 4 * c.size + 2

end

end Octet.Grammar
