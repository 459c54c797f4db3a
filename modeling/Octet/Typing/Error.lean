import Octet.Source.Position
import Octet.Tree.Ty

/-!
Type errors. An error is a fault at a position. Checking goes on after an
error, so the errors of a block or of a program come together in one that
combines them.
-/

namespace Octet

/-- What can be wrong with the types of a program. -/
inductive TypeFault where
  | mismatch (expected received : Ty)
  | notNumerical (got : Ty)
  | undefinedVariable (name : String)
  | undefinedType (type : Ty)
  | alreadyDefined (name : String)
  /-- A function that promises a value never returns one. -/
  | noReturn (expected : Ty) (function : String)
  | notFunction (name : String)
  | tooManyArguments (name : String) (got expected : Nat)
  | notEnoughArguments (name : String) (got expected : Nat)
  deriving DecidableEq, Repr

def TypeFault.text : TypeFault → String
  | mismatch expected received =>
      "Expected type " ++ expected.text ++ ". Received type " ++ received.text ++ "."
  | notNumerical got => "Expected numerical type. Received type " ++ got.text ++ "."
  | undefinedVariable name => "Undefined variable " ++ name ++ "."
  | undefinedType type => "Undefined type " ++ type.text ++ "."
  | alreadyDefined name => "Variable `" ++ name ++ "` is already defined."
  | noReturn expected function =>
      "Function `" ++ function ++ "` return type is " ++ expected.text ++
        ", but there is no return statement inside it."
  | notFunction name => "`" ++ name ++ "` is not a function and cannot be called."
  | tooManyArguments name got expected =>
      "Function `" ++ name ++ "` takes " ++ toString expected ++ " arguments, but " ++
        toString got ++ " were given."
  | notEnoughArguments name got expected =>
      "Function `" ++ name ++ "` takes " ++ toString expected ++ " arguments, but only " ++
        toString got ++ " were given."

/-- Why a program is not well typed. -/
inductive TypeError where
  | single (fault : TypeFault) (position : Position)
  | combined (errors : List TypeError)
  deriving Repr

namespace TypeError

/-- Where the program is wrong, if that is one place. -/
def position? : TypeError → Option Position
  | single _ p => some p
  | combined _ => none

mutual

/-- The single faults that an error is made of, in order. -/
def leaves : TypeError → List (TypeFault × Position)
  | single fault p => [(fault, p)]
  | combined errors => leavesAll errors

def leavesAll : List TypeError → List (TypeFault × Position)
  | [] => []
  | error :: errors => error.leaves ++ leavesAll errors

end

mutual

/-- The error in words, a line for each fault. -/
def message : TypeError → String
  | single fault p => p.locate fault.text
  | combined errors => "\n".intercalate (messages errors)

def messages : List TypeError → List String
  | [] => []
  | error :: errors => error.message :: messages errors

end

/-- One error for several, if there is any. -/
def combine : List TypeError → Except TypeError Unit
  | [] => .ok ()
  | errors => .error (combined errors)

end TypeError

end Octet
