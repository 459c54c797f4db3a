import Mathlib.Data.BitVec
import Mathlib.Logic.Relation
import Octet.Z80.Line

/-!
The Z80, as far as programs use it. Its code is a list of lines: each
instruction takes as many bytes as it has in the machine, labels and empty
lines take none, and the first line stands at the origin. The program counter
is an address, and so is what a call leaves on the stack.

The width of words is a parameter, `Words`, with two instances. The machine
itself has words of 16 bits, so that a deep recursion runs out of memory; next
to it stands a machine whose words are integers and whose stack has no end.

Of the flags only the one for zero is kept, since no instruction here looks at
another. The routine that prints is not part of the program: it prints, gives
the stack back, and may leave anything in the registers that it does not keep.
The code lies outside of the memory that instructions write to.
-/

namespace Octet.Z80

/-! ### Words -/

/-- Cells of the memory, which hold bytes. -/
class Cell (C : Type) where
  byte : UInt8 → C
  value : C → UInt8
  value_byte : ∀ n, value (byte n) = n

/-- Words, which take two cells. -/
class Words (W : Type) (C : outParam Type) where
  high : W → C
  low : W → C
  word : C → C → W
  word_high_low : ∀ w, word (high w) (low w) = w

export Cell (byte value)
export Words (high low word)

attribute [simp] Cell.value_byte Words.word_high_low

instance : Cell (BitVec 8) where
  byte := UInt8.toBitVec
  value := UInt8.ofBitVec
  value_byte _ := rfl

instance : Words (BitVec 16) (BitVec 8) where
  high w := w.extractLsb' 8 8
  low w := w.extractLsb' 0 8
  word h l := h ++ l
  word_high_low w :=
    (BitVec.extractLsb'_append_extractLsb'_eq_extractLsb' (rfl : 8 = 0 + 8)).trans (by simp)

instance : Cell ℤ where
  byte n := n.toNat
  value c := UInt8.ofNat c.toNat
  value_byte n := by simp

/-- Words without an upper bound: the lower cell has the last digit to the base
256, and the upper cell has all the others. -/
instance : Words ℤ ℤ where
  high w := w / 256
  low w := w % 256
  word h l := 256 * h + l
  word_high_low w := by omega

/-! ### Code -/

def Instr.size : Instr → Nat
  | pushAF | popBC | addAB | compareB | ret | printA => 1
  | loadA _ | pushIX | popIX | addIXSP | loadSPIX | neg | compare _ | jumpShortNZ _ => 2
  | fetchA _ | storeA _ | jumpNZ _ | call _ => 3
  | clearIX => 4

def Line.size : Line → Nat
  | instr i => i.size
  | blank | label _ | directive _ | verbatim _ => 0

def codeSize (lines : List Line) : Nat := (lines.map Line.size).sum

/-- The address of the first line. -/
def origin {W : Type} [CommRing W] : W := 0x8000

section

variable {W : Type} [CommRing W] [DecidableEq W]

/-- The instruction at an address, if the lines begin at `start`. -/
def fetchFrom (start : W) : List Line → W → Option Instr
  | [], _ => none
  | .instr i :: lines, w => if start = w then some i else fetchFrom (start + i.size) lines w
  | .blank :: lines, w | .label _ :: lines, w | .directive _ :: lines, w
  | .verbatim _ :: lines, w => fetchFrom start lines w

/-- The address of a label, if the lines begin at `start`. -/
def labelFrom (start : W) : List Line → String → Option W
  | [], _ => none
  | .label l :: lines, x => if l = x then some start else labelFrom start lines x
  | .instr i :: lines, x => labelFrom (start + i.size) lines x
  | .blank :: lines, x | .directive _ :: lines, x | .verbatim _ :: lines, x =>
      labelFrom start lines x

/-- A short jump from an address reaches a target. -/
def near (start target : W) : Bool :=
  (List.range 256).any fun k => target == start + ((k : Int) - 128 : Int)

/-- A displacement that an instruction can have. -/
def addressable (d : Int) : Bool := -128 ≤ d && d ≤ 127

end

/-! ### Machines -/

/-- The registers that a routine outside of the program need not keep. -/
structure Registers where
  a : UInt8
  b : UInt8
  c : UInt8
  /-- The last result was zero, or the last comparison found no difference. -/
  zero : Bool

/-- A machine that has printed something. -/
structure Machine (W C : Type) where
  pc : W
  ix : W
  sp : W
  registers : Registers
  memory : W → C
  output : List UInt8

def Registers.flags (r : Registers) : UInt8 := if r.zero then 0x40 else 0

namespace Machine

variable {W C : Type} [CommRing W] [DecidableEq W] [Cell C] [Words W C]

def advance (i : Instr) (m : Machine W C) : Machine W C := { m with pc := m.pc + i.size }

def push (h l : C) (m : Machine W C) : Machine W C :=
  { m with
    sp := m.sp - 2
    memory := Function.update (Function.update m.memory (m.sp - 1) h) (m.sp - 2) l }

def top (m : Machine W C) : W := word (m.memory (m.sp + 1)) (m.memory m.sp)

def drop (m : Machine W C) : Machine W C := { m with sp := m.sp + 2 }

def setA (n : UInt8) (m : Machine W C) : Machine W C :=
  { m with registers := { m.registers with a := n } }

/-- Puts the result of an operation into `a`. -/
def result (n : UInt8) (m : Machine W C) : Machine W C :=
  { m with registers := { m.registers with a := n, zero := n == 0 } }

def compare (n : UInt8) (m : Machine W C) : Machine W C :=
  { m with registers := { m.registers with zero := m.registers.a == n } }

/-- Carries out an instruction, among labels with their addresses. Printing
leaves the registers of `rom`. -/
def exec (rom : Machine W C → Registers) (label : String → Option W) (i : Instr)
    (m : Machine W C) : Option (Machine W C) :=
  let next := m.advance i
  match i with
  | .loadA n => some (next.setA n)
  | .fetchA d => if addressable d then some (next.setA (value (m.memory (m.ix + d)))) else none
  | .storeA d =>
      if addressable d then
        some { next with memory := Function.update m.memory (m.ix + d) (byte m.registers.a) }
      else none
  | .pushAF => some (next.push (byte m.registers.a) (byte m.registers.flags))
  | .popBC =>
      some { next.drop with
        registers := { m.registers with
          b := value (m.memory (m.sp + 1))
          c := value (m.memory m.sp) } }
  | .pushIX => some (next.push (high m.ix) (low m.ix))
  | .popIX => some { next.drop with ix := m.top }
  | .clearIX => some { next with ix := 0 }
  | .addIXSP => some { next with ix := m.ix + m.sp }
  | .loadSPIX => some { next with sp := m.ix }
  | .addAB => some (next.result (m.registers.a + m.registers.b))
  | .neg => some (next.result (-m.registers.a))
  | .compareB => some (next.compare m.registers.b)
  | .compare n => some (next.compare n)
  | .jumpShortNZ l =>
      if m.registers.zero then some next
      else (label l).bind fun w => if near next.pc w then some { m with pc := w } else none
  | .jumpNZ l =>
      if m.registers.zero then some next else (label l).map fun w => { m with pc := w }
  | .call l => (label l).map fun w => { next.push (high next.pc) (low next.pc) with pc := w }
  | .ret => some { m.drop with pc := m.top }
  | .printA =>
      some { next with output := m.output ++ [m.registers.a], registers := rom m }

/-- Carries out the instruction at the program counter. -/
def step (rom : Machine W C → Registers) (lines : List Line) (m : Machine W C) :
    Option (Machine W C) :=
  (fetchFrom origin lines m.pc).bind fun i => m.exec rom (labelFrom origin lines) i

/-- Some number of steps lead from one machine to another. -/
def Runs (rom : Machine W C → Registers) (lines : List Line) : Machine W C → Machine W C → Prop :=
  Relation.ReflTransGen fun m m' => m.step rom lines = some m'

end Machine

end Octet.Z80
