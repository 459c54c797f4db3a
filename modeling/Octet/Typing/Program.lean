import Octet.Tree.Program
import Octet.Typing.Stmt

/-!
Checking functions and programs. All functions of a program are known before
the first of them is checked, so that the order of functions does not matter to
their calls.
-/

namespace Octet

namespace Function

/-- The type of a function, with the types that are meant by its header. -/
def resolvedSignature (f : Function) (env : Environment) : Except TypeError Ty := do
  let returns ← env.resolve f.returns f.position
  let parameters ← f.parameters.mapM fun p => env.resolve p.type p.position
  return .function parameters returns

/-- The type that the calls of a function see. If its header names an unknown
type, which is reported with the function itself, they see it as written. -/
def visibleSignature (f : Function) (env : Environment) : Ty :=
  match f.resolvedSignature env with
  | .ok t => t
  | .error _ => f.signature

/-- Declares parameters, up to the first that cannot be. -/
def declareParameters : List Parameter → Check Unit
  | [] => pure ()
  | p :: ps => do
      let type ← Check.ask fun env => env.resolve p.type p.position
      Check.update fun env => env.declare p.name type p.position
      declareParameters ps

/-- Checks what a function does, inside the scope of its parameters. -/
def checkBody (f : Function) : Check Unit := do
  let returns ← Check.ask fun env => env.resolve f.returns f.position
  modify fun c => { c with returnType := returns }
  declareParameters f.parameters
  f.body.check
  if !(← get).returned ∧ returns ≠ .void then
    throw (.single (.noReturn returns f.name) f.position)

/-- Checks a function, which may call itself. -/
def check (f : Function) : Check Unit := do
  modify fun c => { c with returned := false, returnType := f.returns }
  modify fun c =>
    c.withEnvironment (c.environment.setVariable f.name (f.visibleSignature c.environment))
  Check.inScope f.checkBody

/-- Makes functions known, and says of each whether its name was taken. -/
def declareAll : List Function → Check (List (Option TypeError))
  | [] => pure []
  | f :: fs => do
      let error ← Check.failure? <| Check.update fun env =>
        env.declare f.name (f.visibleSignature env) f.position
      let errors ← declareAll fs
      return error :: errors

/-- Checks functions one after the other and collects the failures, each behind
the error of its name. -/
def failures : List (Function × Option TypeError) → Check (List TypeError)
  | [] => pure []
  | (f, redefinition) :: fs => do
      let error ← Check.failure? f.check
      let errors ← failures fs
      return redefinition.toList ++ error.toList ++ errors

end Function

namespace Program

/-- Checks a program where its functions can be declared. -/
def check (p : Program) : Check Unit := do
  let redefinitions ← Function.declareAll p.functions
  let errors ← Function.failures (p.functions.zip redefinitions)
  Check.combine errors

def typeCheck (p : Program) : Except TypeError Unit :=
  match p.check Checker.initial with
  | .ok _ _ => .ok ()
  | .error e _ => .error e

end Program

end Octet
