import Octet.Typing.Expr

/-!
The state that checking carries from statement to statement: the environment,
the type that the current function returns, and whether one of its statements
has returned a value. Whatever a check has changed before it fails stays
changed, because checking goes on behind the failure.
-/

namespace Octet

structure Checker where
  environment : Environment
  returnType : Ty
  returned : Bool
  deriving Repr

/-- Checks that change the state, also when they fail. -/
abbrev Check (α : Type) := EStateM TypeError Checker α

namespace Checker

def initial : Checker := ⟨Environment.empty, .void, false⟩

def withEnvironment (c : Checker) (environment : Environment) : Checker :=
  { c with environment }

end Checker

namespace Check

variable {α : Type}

/-- A value that depends on the environment and changes nothing. -/
def ask (f : Environment → Except TypeError α) : Check α := fun c =>
  match f c.environment with
  | .ok a => .ok a c
  | .error e => .error e c

/-- A change of the environment, which stays as it is if that fails. -/
def update (f : Environment → Except TypeError Environment) : Check Unit := fun c =>
  match f c.environment with
  | .ok env => .ok () (c.withEnvironment env)
  | .error e => .error e c

/-- A check in a scope of its own, which is closed again in any case. -/
def inScope (check : Check α) : Check α := fun c =>
  match check (c.withEnvironment (c.environment.push Scope.empty)) with
  | .ok a c' => .ok a (c'.withEnvironment c'.environment.pop)
  | .error e c' => .error e (c'.withEnvironment c'.environment.pop)

/-- The error of a check that fails, as a value. -/
def failure? (check : Check Unit) : Check (Option TypeError) := fun c =>
  match check c with
  | .ok _ c' => .ok none c'
  | .error e c' => .ok (some e) c'

def typeOf (e : Expr) : Check Ty := ask fun env => e.typeIn env

def combine (errors : List TypeError) : Check Unit :=
  match TypeError.combine errors with
  | .ok _ => pure ()
  | .error e => throw e

end Check

end Octet
