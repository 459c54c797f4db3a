import Octet.Grammar.Dispatch
import Octet.Grammar.Outcome
import Octet.Text.Numeral
import Octet.Tree.Expr

/-!
The rules for expressions:

    expression := addition (("==" | "!=") addition)*
    addition   := factor ("+" addition)?
    factor     := "+" factor | "-" factor | "(" expression ")" | atom
    atom       := number | "true" | "false" | identifier | call
    call       := identifier "(" (expression ("," expression)*)? ")"

Comparisons group to the left and additions to the right.
-/

namespace Octet.Grammar

def atomStart : List Token.Kind := [.number, .identifier, .kwTrue, .kwFalse]

/-- The comparison that a kind of token stands for. -/
def comparison? : Token.Kind → Option Comparison
  | .equal => some .equal
  | .notEqual => some .notEqual
  | _ => none

/-- A number. The token is read whether it spells a byte or not. -/
def number (c : Cursor) : Outcome Expr c.size :=
  (c.take .number).andThen fun token c₁ h₁ =>
    match Text.byte? token.value with
    | some value => .done (.number value token.position) c₁ h₁
    | none => .failed (.outOfRange token.value token.position) c₁

mutual

def expr (d : Dispatch) (c : Cursor) : Outcome Expr c.size :=
  (addition d c).andThen fun left c₁ h₁ =>
  comparisons d left c₁ h₁
termination_by 8 * c.size + 5

/-- The comparisons that follow an operand. -/
def comparisons (d : Dispatch) (left : Expr) (c : Cursor) {n : Nat} (h : c.size < n) :
    Outcome Expr n :=
  match comparison? c.kind with
  | none => .done left c h
  | some comparison =>
      (c.takeAny [.equal, .notEqual]).within h fun operator c₁ h₁ _ =>
      (addition d c₁).within h₁ fun right c₂ h₂ _ =>
      comparisons d (.compare comparison left right operator.position) c₂ h₂
termination_by 8 * c.size

/-- A sum, or a single factor. -/
def addition (d : Dispatch) (c : Cursor) : Outcome Expr c.size :=
  (factor d c).andThen fun left c₁ h₁ =>
    if c₁.kind = .plus then
      (c₁.take .plus).within h₁ fun operator c₂ h₂ _ =>
      (addition d c₂).within h₂ fun right c₃ h₃ _ =>
      .done (.add left right operator.position) c₃ h₃
    else
      .done left c₁ h₁
termination_by 8 * c.size + 4

/-- A factor, by the rule that its first token leads to. -/
def factor (d : Dispatch) (c : Cursor) : Outcome Expr c.size :=
  match d.factor? c.kind with
  | none => .failed (c.unexpected atomStart) c
  | some .unaryPlus => unaryPlus d c
  | some .negation => negation d c
  | some .grouping => grouping d c
  | some .atom => atom d c
termination_by 8 * c.size + 3

/-- A factor behind a plus sign, which changes nothing. -/
def unaryPlus (d : Dispatch) (c : Cursor) : Outcome Expr c.size :=
  (c.take .plus).andThen fun _ c₁ h₁ =>
  (factor d c₁).within h₁ fun operand c₂ h₂ _ =>
  .done operand c₂ h₂
termination_by 8 * c.size + 2

/-- A factor behind a minus sign. -/
def negation (d : Dispatch) (c : Cursor) : Outcome Expr c.size :=
  (c.take .minus).andThen fun operator c₁ h₁ =>
  (factor d c₁).within h₁ fun operand c₂ h₂ _ =>
  .done (.negate operand operator.position) c₂ h₂
termination_by 8 * c.size + 2

def grouping (d : Dispatch) (c : Cursor) : Outcome Expr c.size :=
  (c.take .leftParen).andThen fun _ c₁ h₁ =>
  (expr d c₁).within h₁ fun inner c₂ h₂ _ =>
  (c₂.take .rightParen).within h₂ fun _ c₃ h₃ _ =>
  .done inner c₃ h₃
termination_by 8 * c.size + 2

/-- A number, a truth value, a variable or a call. -/
def atom (d : Dispatch) (c : Cursor) : Outcome Expr c.size :=
  match c.kind with
  | .number => number c
  | .identifier =>
      if c.peek 1 = .leftParen then
        call d c
      else
        (c.take .identifier).andThen fun token c₁ h₁ =>
        .done (.var token.value token.position) c₁ h₁
  | .kwTrue =>
      (c.take .kwTrue).andThen fun token c₁ h₁ =>
      .done (.boolean true token.position) c₁ h₁
  | .kwFalse =>
      (c.take .kwFalse).andThen fun token c₁ h₁ =>
      .done (.boolean false token.position) c₁ h₁
  | _ => .failed (c.unexpected atomStart) c
termination_by 8 * c.size + 2

def call (d : Dispatch) (c : Cursor) : Outcome Expr c.size :=
  (c.take .identifier).andThen fun callee c₁ h₁ =>
  (c₁.take .leftParen).within h₁ fun _ c₂ h₂ _ =>
  (argumentList d c₂ h₂).andThen fun args c₃ h₃ =>
  (c₃.take .rightParen).within h₃ fun _ c₄ h₄ _ =>
  .done (.call callee.value args callee.position) c₄ h₄
termination_by 8 * c.size + 1

def argumentList (d : Dispatch) (c : Cursor) {n : Nat} (h : c.size < n) : Outcome (List Expr) n :=
  if c.kind = .rightParen then
    .done [] c h
  else
    (arguments d c).within h fun args c₁ h₁ _ =>
    .done args c₁ h₁
termination_by 8 * c.size + 7

/-- Arguments between commas, at least one. -/
def arguments (d : Dispatch) (c : Cursor) : Outcome (List Expr) c.size :=
  (expr d c).andThen fun first c₁ h₁ =>
    if c₁.kind = .comma then
      (c₁.take .comma).within h₁ fun _ c₂ h₂ _ =>
      (arguments d c₂).within h₂ fun more c₃ h₃ _ =>
      .done (first :: more) c₃ h₃
    else
      .done [first] c₁ h₁
termination_by 8 * c.size + 6

end

end Octet.Grammar
