import Octet.Lowering.Gen
import Octet.Tree.Expr

/-!
The code of expressions, which leaves their value in `a` and the stack as it
was. Operands are evaluated from left to right: the left one waits on the stack
for the right one.
-/

namespace Octet

def truth (b : Bool) : UInt8 := if b then 1 else 0

namespace Comparison

/-- The result of the comparison when both values are the same. -/
def whenSame : Comparison → Bool
  | equal => true
  | notEqual => false

/-- Compares `a` with `b`. Loading a byte does not change what the comparison
has found. -/
def lower (c : Comparison) : Gen Unit := do
  let done ← Gen.newLabel "cmp_end"
  Gen.emit
    [.instr .compareB,
      .instr (.loadA (truth !c.whenSame)),
      .instr (.jumpShortNZ done),
      .instr (.loadA (truth c.whenSame)),
      .label done]

end Comparison

namespace Expr

mutual

def lower : Expr → Gen Unit
  | number value _ => Gen.instrs [.loadA value]
  | boolean value _ => Gen.instrs [.loadA (truth value)]
  | var name p => do
      let d ← Gen.slotOf name p
      Gen.instrs [.fetchA d]
  | negate operand _ => do
      operand.lower
      Gen.instrs [.neg]
  | add left right _ => do
      left.lower
      Gen.instrs [.pushAF]
      right.lower
      Gen.instrs [.popBC, .addAB]
  | compare comparison left right _ => do
      left.lower
      Gen.instrs [.pushAF]
      right.lower
      Gen.instrs [.popBC]
      comparison.lower
  | call name args _ => do
      lowerArguments args
      Gen.instrs (.call (functionLabel name) :: List.replicate args.length .popBC)

/-- The code that pushes arguments, one by one. -/
def lowerArguments : List Expr → Gen Unit
  | [] => pure ()
  | a :: args => do
      a.lower
      Gen.instrs [.pushAF]
      lowerArguments args

end

end Expr

end Octet
