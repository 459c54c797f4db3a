import Octet.Diagnostic.Error
import Octet.Source.Lines
import Octet.Text.Blank

/-!
Reports for the reader of a source text. A report names the error and the file,
shows every line that the error points at with an arrow under the place, and
ends with the error in words. Type errors are reported as a group, even if there
is only one:

    Error: Combined
    -> a file
      |
    2 | let x: u8 = true
      | ^
    At line 2, column 5: Expected type u8. Received type bool.

The lines are shown without the spaces around them, and the arrow moves with
them.
-/

namespace Octet.Report

/-- A text with as many fill characters in front as it takes to make it
`width` characters long. -/
def padLeft (fill : Char) (width : Nat) (text : String) : String :=
  String.ofList (List.replicate (width - text.length) fill) ++ text

/-- The line that a position points into, with an arrow under the place. There
is none if the text has no such line. -/
def snippet (source : String) (p : Position) : String :=
  match Source.lineAt? source p.line with
  | none => ""
  | some line =>
      let number := toString p.line
      let margin := padLeft ' ' (number.length + 2) "|"
      let spaces := Source.leadingSpaces line.toList
      let shown := String.ofList (Text.trimEnd (line.toList.drop spaces))
      let arrow := padLeft '-' (max 1 (p.column - spaces)) "^"
      margin ++ "\n" ++
        number ++ " | " ++ shown ++ "\n" ++
        margin ++ " " ++ arrow ++ "\n"

def render (error : CompileError) (source file : String) : String :=
  "Error: " ++ error.name ++ "\n-> " ++ file ++ "\n" ++
    String.join (error.positions.map (snippet source)) ++
    error.message ++ "\n"

end Octet.Report
