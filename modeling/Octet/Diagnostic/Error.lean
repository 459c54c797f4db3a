import Octet.Grammar.Cursor
import Octet.Lowering.Frame
import Octet.Token.Scan
import Octet.Typing.Error

/-!
Everything that can go wrong between a source text and its assembly text.
-/

namespace Octet

/-- Why a source text has no assembly text. -/
inductive CompileError where
  | scan (error : ScanError)
  | parse (error : ParseError)
  | typing (error : TypeError)
  | codegen (error : CodegenError)
  deriving Repr

/-! ### The names under which errors are reported -/

def ScanError.name : ScanError → String
  | unrecognized _ _ => "UnrecognizedToken"
  | uneven _ _ => "UnevenIndentation"

def ParseError.name : ParseError → String
  | unexpected _ _ _ => "UnexpectedToken"
  | outOfRange _ _ => "NumberOutOfRange"

def TypeFault.name : TypeFault → String
  | mismatch _ _ => "TypeMismatch"
  | notNumerical _ => "ExpectedNumericalType"
  | undefinedVariable _ => "UndefinedVariable"
  | undefinedType _ => "UndefinedType"
  | alreadyDefined _ => "AlreadyDefinedVariable"
  | noReturn _ _ => "NoReturn"
  | notFunction _ => "NotFunctionCall"
  | tooManyArguments _ _ _ => "TooManyArguments"
  | notEnoughArguments _ _ _ => "NotEnoughArguments"

def TypeError.name : TypeError → String
  | single fault _ => fault.name
  | combined _ => "Combined"

def CodegenError.name : CodegenError → String
  | unresolvedVariable _ _ => "UnresolvedVariable"
  | frameTooLarge _ _ => "FrameTooLarge"
  | mainHasParameters _ => "MainHasParameters"

namespace CompileError

def name : CompileError → String
  | scan e => e.name
  | parse e => e.name
  | typing e => e.name
  | codegen e => e.name

def message : CompileError → String
  | scan e => e.message
  | parse e => e.message
  | typing e => e.message
  | codegen e => e.message

/-- All places where the source is wrong. -/
def positions : CompileError → List Position
  | scan e => [e.position]
  | parse e => [e.position]
  | typing e => e.leaves.map Prod.snd
  | codegen e => [e.position]

end CompileError

end Octet
