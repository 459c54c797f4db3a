/-!
The instructions of the Z80 that programs are made of. Values are computed in
the accumulator `a`; `b` holds the left operand of an operator; `ix` points at
the frame of the current function.
-/

namespace Octet.Z80

/-- The operand for the byte at a distance from `ix`. -/
def indexed (displacement : Int) : String :=
  "(ix" ++ (if 0 ≤ displacement then "+" else "") ++ toString displacement ++ ")"

inductive Instr where
  /-- Puts a byte into `a`. -/
  | loadA (value : UInt8)
  /-- Puts the byte at a distance from `ix` into `a`. -/
  | fetchA (displacement : Int)
  /-- Writes `a` to the byte at a distance from `ix`. -/
  | storeA (displacement : Int)
  | pushAF
  | popBC
  | pushIX
  | popIX
  /-- Puts zero into `ix`. -/
  | clearIX
  /-- Adds `sp` to `ix`. -/
  | addIXSP
  /-- Puts `ix` into `sp`. -/
  | loadSPIX
  /-- Adds `b` to `a`. -/
  | addAB
  /-- Negates `a`. -/
  | neg
  /-- Compares `a` with `b`. -/
  | compareB
  /-- Compares `a` with a byte. -/
  | compare (value : UInt8)
  /-- Jumps a short way if the last comparison failed. -/
  | jumpShortNZ (label : String)
  /-- Jumps if the last comparison failed. -/
  | jumpNZ (label : String)
  | call (label : String)
  | ret
  /-- Calls the routine that prints the character in `a`. -/
  | printA
  deriving DecidableEq, Repr

/-- The instruction as the assembler reads it. -/
def Instr.text : Instr → String
  | loadA n => "ld a, " ++ toString n.toNat
  | fetchA d => "ld a, " ++ indexed d
  | storeA d => "ld " ++ indexed d ++ ", a"
  | pushAF => "push af"
  | popBC => "pop bc"
  | pushIX => "push ix"
  | popIX => "pop ix"
  | clearIX => "ld ix, 0"
  | addIXSP => "add ix, sp"
  | loadSPIX => "ld sp, ix"
  | addAB => "add a, b"
  | neg => "neg"
  | compareB => "cp b"
  | compare n => "cp " ++ toString n.toNat
  | jumpShortNZ l => "jr nz, " ++ l
  | jumpNZ l => "jp nz, " ++ l
  | call l => "call " ++ l
  | ret => "ret"
  | printA => "rst $10"

end Octet.Z80
