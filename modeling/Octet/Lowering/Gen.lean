import Octet.Lowering.Frame
import Octet.Z80.Line

/-!
Generating code. A piece of a program is lowered against the frame it stands in
and the number of labels that have been made, and comes out as lines, which
depend on nothing that was written before them. A piece that cannot be lowered
has written the lines up to the place where it fails, and leaves the frame as
it was there.
-/

namespace Octet

/-- What lowering knows and remembers. -/
structure Generator where
  frame : Frame
  /-- The number of labels made so far. -/
  labels : Nat
  deriving DecidableEq, Repr

def Generator.initial : Generator := ⟨Frame.empty, 0⟩

/-- What comes of lowering a piece of a program. -/
structure Emission (α : Type) where
  lines : List Z80.Line
  outcome : Except CodegenError α
  after : Generator

/-- Lowering that writes lines. -/
def Gen (α : Type) : Type := Generator → Emission α

namespace Gen

variable {α β : Type}

def ret (a : α) : Gen α := fun g => ⟨[], .ok a, g⟩

/-- Goes on behind a piece unless it fails. -/
def andThen (x : Gen α) (f : α → Gen β) : Gen β := fun g =>
  match x g with
  | ⟨lines, .ok a, g'⟩ =>
      let rest := f a g'
      ⟨lines ++ rest.lines, rest.outcome, rest.after⟩
  | ⟨lines, .error e, g'⟩ => ⟨lines, .error e, g'⟩

instance : Monad Gen where
  pure := ret
  bind := andThen

def fail (e : CodegenError) : Gen α := fun g => ⟨[], .error e, g⟩

def emit (lines : List Z80.Line) : Gen Unit := fun g => ⟨lines, .ok (), g⟩

def instrs (instructions : List Z80.Instr) : Gen Unit := emit (instructions.map .instr)

/-- A label that no other one is like. -/
def newLabel (stem : String) : Gen String := fun g =>
  ⟨[], .ok (stem ++ "_" ++ toString g.labels), { g with labels := g.labels + 1 }⟩

/-- A change of the frame. -/
def onFrame (f : Frame → Frame × Except CodegenError α) : Gen α := fun g =>
  let (frame, outcome) := f g.frame
  ⟨[], outcome, { g with frame }⟩

def openBlock : Gen Unit := onFrame fun f => (f.openBlock, .ok ())

def closeBlock : Gen Nat := onFrame fun f => (f.closeBlock.1, .ok f.closeBlock.2)

def pushLocal (name : String) : Gen Int := onFrame fun f => f.pushLocal name

def slotOf (name : String) (position : Position) : Gen Int :=
  onFrame fun f => (f, f.slotOf name position)

/-- The end of a function: gives up its frame and returns, with the value in
`a`. -/
def epilogue : Gen Unit := instrs [.loadSPIX, .popIX, .ret]

end Gen

def functionLabel (name : String) : String := "fn_" ++ name

end Octet
