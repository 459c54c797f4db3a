import Octet.Lowering.Expr
import Octet.Tree.Stmt

/-!
The code of statements. A declaration leaves its value on the stack, and the
block around it takes it off again when it ends.
-/

namespace Octet

namespace Stmt

mutual

def lower : Stmt → Gen Unit
  | block body _ => do
      Gen.openBlock
      lowerAll body
      let count ← Gen.closeBlock
      Gen.instrs (List.replicate count .popBC)
  | ifThen condition consequence _ => do
      let done ← Gen.newLabel "if_end"
      condition.lower
      Gen.instrs [.compare 1, .jumpNZ done]
      consequence.lower
      Gen.emit [.label done]
  | print value _ => do
      value.lower
      Gen.instrs [.printA]
  | declare name _ value _ => do
      value.lower
      Gen.instrs [.pushAF]
      let _ ← Gen.pushLocal name
  | assign name value p => do
      value.lower
      let d ← Gen.slotOf name p
      Gen.instrs [.storeA d]
  | ret value _ => do
      value.lower
      Gen.epilogue
  | evaluate value => value.lower

def lowerAll : List Stmt → Gen Unit
  | [] => pure ()
  | s :: body => do
      s.lower
      lowerAll body

end

end Stmt

def Block.lower (b : Block) : Gen Unit := b.toStmt.lower

end Octet
