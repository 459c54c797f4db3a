import Octet.Source.Position

/-!
The frame of a function on the stack. Every value is one byte, kept in the
upper half of a pushed register pair, so that a slot takes two bytes. The frame
is addressed from the place where the caller's frame pointer is saved: above it
lie the return address and the arguments, which the caller has pushed from left
to right, and below it the local variables, in the order of their declaration.

A slot can be addressed if its distance from that place fits a signed byte.
-/

namespace Octet

/-- Why a program has no code. -/
inductive CodegenError where
  | unresolvedVariable (name : String) (position : Position)
  /-- The function has a slot that cannot be addressed. -/
  | frameTooLarge (function : String) (position : Position)
  | mainHasParameters (position : Position)
  deriving DecidableEq, Repr

namespace CodegenError

def position : CodegenError → Position
  | unresolvedVariable _ p => p
  | frameTooLarge _ p => p
  | mainHasParameters p => p

def explanation : CodegenError → String
  | unresolvedVariable name _ => "Variable " ++ name ++ " has no stack slot."
  | frameTooLarge function _ =>
      "Function `" ++ function ++ "` needs more stack slots than an IX displacement can reach."
  | mainHasParameters _ =>
      "Function `main` is called with no arguments, so it cannot take parameters."

def message (e : CodegenError) : String := e.position.locate e.explanation

end CodegenError

/-- A variable and its distance from the frame pointer. -/
structure Slot where
  name : String
  displacement : Int
  deriving DecidableEq, Repr

/-- The distance fits a signed byte. -/
def Slot.inReach (s : Slot) : Bool := -128 ≤ s.displacement && s.displacement ≤ 127

/-- What is known about the frame of the function at hand. -/
structure Frame where
  /-- The slots that can be seen, the innermost one first. -/
  slots : List Slot
  /-- For each open block, the innermost one first, the number of slots that
  could be seen when it was opened. -/
  marks : List Nat
  /-- The number of local variables on the stack. -/
  locals : Nat
  function : String
  position : Position
  deriving DecidableEq, Repr

namespace Frame

def empty : Frame := ⟨[], [], 0, "", default⟩

def tooLarge (f : Frame) : CodegenError := .frameTooLarge f.function f.position

/-- The slot of a parameter with `after` parameters behind it: past the saved
frame pointer and the return address, and two bytes for each of those. -/
def parameterSlot (name : String) (after : Nat) : Slot := ⟨name, 5 + 2 * after⟩

def parameterSlots : List String → List Slot
  | [] => []
  | name :: names => parameterSlot name names.length :: parameterSlots names

/-- The slot of the local variable with a number, counting from one. -/
def localSlot (name : String) (number : Nat) : Slot := ⟨name, 1 - 2 * number⟩

/-- The frame at the beginning of a function. If a parameter is out of reach,
no slot can be seen. -/
def enter (function : String) (parameters : List String) (position : Position) :
    Frame × Except CodegenError Unit :=
  let f : Frame := ⟨[], [], 0, function, position⟩
  let slots := parameterSlots parameters
  if slots.all Slot.inReach then ({ f with slots := slots.reverse }, .ok ())
  else (f, .error f.tooLarge)

def openBlock (f : Frame) : Frame := { f with marks := f.slots.length :: f.marks }

/-- Closes the innermost block and forgets its variables, which it counts. -/
def closeBlock (f : Frame) : Frame × Nat :=
  let mark := f.marks.headD f.slots.length
  let removed := f.slots.length - mark
  ({ f with
      slots := f.slots.drop removed
      marks := f.marks.tail
      locals := f.locals - removed }, removed)

/-- Declares a variable whose value has just been pushed. It is on the stack
even if it is out of reach. -/
def pushLocal (name : String) (f : Frame) : Frame × Except CodegenError Int :=
  let slot := localSlot name (f.locals + 1)
  let pushed := { f with locals := f.locals + 1 }
  if slot.inReach then ({ pushed with slots := slot :: f.slots }, .ok slot.displacement)
  else (pushed, .error f.tooLarge)

/-- The distance of the innermost variable of that name. -/
def lookup (name : String) (f : Frame) : Option Int :=
  (f.slots.find? fun s => s.name == name).map Slot.displacement

def slotOf (name : String) (position : Position) (f : Frame) : Except CodegenError Int :=
  match f.lookup name with
  | some d => .ok d
  | none => .error (.unresolvedVariable name position)

end Frame

end Octet
