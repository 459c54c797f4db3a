import Octet.Tree.Stmt

/-!
Functions and programs.
-/

namespace Octet

structure Parameter where
  name : String
  type : Ty
  position : Position
  deriving Repr

structure Function where
  name : String
  parameters : List Parameter
  returns : Ty
  body : Block
  position : Position
  deriving Repr

def Function.signature (f : Function) : Ty :=
  .function (f.parameters.map Parameter.type) f.returns

/-- A program: functions in the order of its text. -/
structure Program where
  functions : List Function
  position : Position
  deriving Repr

end Octet
