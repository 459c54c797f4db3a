import Octet.Z80.Instr

/-!
Assembly texts, line by line. A label stands at the margin, everything that the
assembler carries out stands behind four spaces.
-/

namespace Octet.Z80

/-- A command to the assembler. -/
inductive Directive where
  /-- Assembles for a machine with a snapshot format. -/
  | device
  /-- Places the code at the bottom of the upper half of the memory. -/
  | origin
  /-- Saves a snapshot under a name, to be entered at the start. -/
  | snapshot (name : String)
  deriving DecidableEq, Repr

def Directive.text : Directive → String
  | device => "DEVICE ZXSPECTRUM48"
  | origin => "org $8000"
  | snapshot name => "SAVESNA \"" ++ name ++ ".sna\", start"

inductive Line where
  | blank
  | label (name : String)
  | instr (instruction : Instr)
  | directive (directive : Directive)
  /-- Some other text for the assembler. -/
  | verbatim (text : String)
  deriving DecidableEq, Repr

namespace Line

/-- What stands in front of everything but labels. -/
def indentation : String := "    "

def text : Line → String
  | blank => "\n"
  | label name => name ++ ":\n"
  | instr i => indentation ++ i.text ++ "\n"
  | directive d => indentation ++ d.text ++ "\n"
  | verbatim t => indentation ++ t ++ "\n"

def join (lines : List Line) : String := String.join (lines.map text)

end Line

end Octet.Z80
