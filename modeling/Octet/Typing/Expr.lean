import Octet.Tree.Expr
import Octet.Typing.Environment

/-!
The types of expressions. They depend on the environment and change nothing in
it. A number alone has the type of a literal, which goes wherever a number
goes; arithmetic between a literal and another number has the type of the
other.
-/

namespace Octet

namespace Ty

/-- The type of the sum of two numbers. -/
def sum? : Ty → Ty → Option Ty
  | literal, t => some t
  | t, literal => some t
  | s, t => if s = t then some s else none

/-- Values of the two types can be compared. -/
def comparable (s t : Ty) : Bool := s.accepts t || t.accepts s

end Ty

namespace Expr

/-- The type of a variable. Functions are no variables: they can only be
called. -/
def variableType (env : Environment) (name : String) (position : Position) :
    Except TypeError Ty := do
  match ← env.variableType name position with
  | .function _ _ => .error (.single (.undefinedVariable name) position)
  | t => .ok t

mutual

def typeIn (env : Environment) : Expr → Except TypeError Ty
  | number _ _ => .ok .literal
  | boolean _ _ => .ok .bool
  | var name p => variableType env name p
  | negate operand p => do
      let t ← operand.typeIn env
      if t.isNumerical then .ok .i8 else .error (.single (.notNumerical t) p)
  | add left right p => do
      let s ← left.typeIn env
      let t ← right.typeIn env
      if !s.isNumerical then .error (.single (.notNumerical s) left.position)
      else if !t.isNumerical then .error (.single (.notNumerical t) right.position)
      else
        match s.sum? t with
        | some whole => .ok whole
        | none => .error (.single (.mismatch s t) p)
  | compare _ left right p => do
      let s ← left.typeIn env
      let t ← right.typeIn env
      if s.comparable t then .ok .bool
      else .error (.single (.mismatch s.defaulted t.defaulted) p)
  | call name args p => do
      match ← env.variableType name p with
      | .function parameters returns =>
          if args.length < parameters.length then
            .error (.single (.notEnoughArguments name args.length parameters.length) p)
          else if parameters.length < args.length then
            .error (.single (.tooManyArguments name args.length parameters.length) p)
          else do
            checkArguments env args parameters
            return returns
      | _ => .error (.single (.notFunction name) p)

/-- The arguments, one by one, have types that the parameters accept. -/
def checkArguments (env : Environment) : List Expr → List Ty → Except TypeError Unit
  | a :: args, t :: parameters => do
      let s ← a.typeIn env
      if t.accepts s then checkArguments env args parameters
      else .error (.single (.mismatch t s.defaulted) a.position)
  | _, _ => .ok ()

end

end Expr

end Octet
