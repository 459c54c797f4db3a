import Octet.Tree.Stmt
import Octet.Typing.Checker

/-!
Checking statements. A statement that fails does not keep the others of its
block from being checked, and the failures of a block come together.
-/

namespace Octet

namespace Ty

/-- A variable of type `t` may be declared with a value of type `received`: any
number will do for a number. -/
def initialisedBy (t received : Ty) : Bool :=
  t.accepts received || (t.isNumerical && received.isNumerical)

end Ty

namespace Stmt

/-- Checks the declaration of a variable. It counts as declared from here on
even if its value does not fit its type. -/
def checkDeclare (name : String) (type : Ty) (value : Expr) (p : Position) : Check Unit := do
  let received ← Check.typeOf value
  let env := (← get).environment
  if env.current.hasVariable name then
    throw (.single (.alreadyDefined name) p)
  let expected ← Check.ask fun env => env.resolve type p
  modify fun c => c.withEnvironment (c.environment.setVariable name expected)
  if !expected.initialisedBy received then
    throw (.single (.mismatch expected received.defaulted) p)

def checkAssign (name : String) (value : Expr) (p : Position) : Check Unit := do
  let received ← Check.typeOf value
  let expected ← Check.ask fun env => env.variableType name p
  if !expected.accepts received then
    throw (.single (.mismatch expected received.defaulted) p)

/-- Checks that a value may be returned, and remembers that one is. -/
def checkRet (value : Expr) (p : Position) : Check Unit := do
  let received ← Check.typeOf value
  let expected := (← get).returnType
  if !expected.accepts received then
    throw (.single (.mismatch expected received.defaulted) p)
  modify fun c => { c with returned := true }

/-- Checks that an expression is a condition. -/
def checkCondition (condition : Expr) : Check Unit := do
  let received ← Check.typeOf condition
  if received ≠ .bool then
    throw (.single (.mismatch .bool received.defaulted) condition.position)

mutual

def check : Stmt → Check Unit
  | block body _ => do
      let errors ← Check.inScope (failures body)
      Check.combine errors
  | ifThen condition consequence _ => do
      checkCondition condition
      consequence.check
  | print value _ => do
      let _ ← Check.typeOf value
  | declare name type value p => checkDeclare name type value p
  | assign name value p => checkAssign name value p
  | ret value p => checkRet value p
  | evaluate value => do
      let _ ← Check.typeOf value

/-- Checks statements one after the other and collects the failures. -/
def failures : List Stmt → Check (List TypeError)
  | [] => pure []
  | s :: body => do
      let error ← Check.failure? s.check
      let errors ← failures body
      return error.toList ++ errors

end

end Stmt

def Block.check (b : Block) : Check Unit := b.toStmt.check

end Octet
