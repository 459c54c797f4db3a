import Octet.Lowering.Stmt
import Octet.Tree.Program

/-!
The code of functions and programs. A program starts by calling its function
`main`, if it has one, and the code of its functions follows in the order of
the text.
-/

namespace Octet

def Function.lower (f : Function) : Gen Unit := do
  Gen.onFrame fun _ => Frame.enter f.name (f.parameters.map Parameter.name) f.position
  Gen.emit
    [.label (functionLabel f.name),
      .instr .pushIX,
      .instr .clearIX,
      .instr .addIXSP]
  f.body.lower
  Gen.epilogue

/-- The code of functions, each behind an empty line. -/
def Function.lowerAll : List Function → Gen Unit
  | [] => pure ()
  | f :: fs => do
      Gen.emit [.blank]
      f.lower
      lowerAll fs

namespace Program

def main? (p : Program) : Option Function := p.functions.find? fun f => f.name == "main"

/-- The code that starts a program. -/
def lowerStart (p : Program) : Gen Unit := do
  Gen.emit [.label "start"]
  match p.main? with
  | none => pure ()
  | some main =>
      if main.parameters.isEmpty then Gen.instrs [.call (functionLabel "main")]
      else Gen.fail (.mainHasParameters main.position)
  Gen.instrs [.ret]

/-- The code of a program. With a name for a snapshot the assembler saves one
under it. -/
def lower (p : Program) (snapshot : Option String) : Gen Unit := do
  if snapshot.isSome then
    Gen.emit [.directive .device]
  Gen.emit [.directive .origin, .blank]
  p.lowerStart
  Function.lowerAll p.functions
  match snapshot with
  | none => pure ()
  | some name => Gen.emit [.blank, .directive (.snapshot name)]

def assemblyLines (p : Program) (snapshot : Option String) :
    Except CodegenError (List Z80.Line) :=
  let emission := p.lower snapshot Generator.initial
  emission.outcome.map fun _ => emission.lines

def assembly (p : Program) (snapshot : Option String) : Except CodegenError String :=
  (p.assemblyLines snapshot).map Z80.Line.join

end Program

end Octet
