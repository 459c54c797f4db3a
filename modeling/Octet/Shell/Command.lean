import Octet.Diagnostic.Error
import Octet.Diagnostic.Report
import Octet.Grammar.Program
import Octet.Lowering.Program
import Octet.Shell.FileTree
import Octet.Typing.Program

/-!
The command line. It takes the path of a source file and, if there is a second
argument, the path of the file for the assembly text, which is printed
otherwise. The snapshot of a program is named like its source file. Reports of
errors in the source are part of the output; everything that keeps the command
from reading or writing is not.
-/

namespace Octet

/-- How a command ends: with a code and with what it has printed. -/
structure Exit where
  code : UInt32
  output : String
  errors : String
  deriving DecidableEq, Repr

structure Command where
  source : String
  target : Option String
  deriving DecidableEq, Repr

namespace Command

def ofArguments : List String → Except Exit Command
  | [source] => .ok ⟨source, none⟩
  | [source, target] => .ok ⟨source, some target⟩
  | _ => .error ⟨2, "", "Usage: zxc <source> [output]\n"⟩

/-- The command goes through the stages itself, and stops at the first that
fails. -/
def translate (text : String) (snapshot : Option String) : Except CompileError String := do
  let tokens ← (Token.scan text).mapError .scan
  let program ← (Program.ofTokens tokens).mapError .parse
  program.typeCheck.mapError .typing
  (program.assembly snapshot).mapError .codegen

/-- The assembly text of the source file, once that has been read. -/
def assembly (c : Command) (contents : Except FileError String) : Except Exit String :=
  match contents with
  | .error e => .error ⟨1, "", "Failed to read " ++ c.source ++ ": " ++ e.message ++ "\n"⟩
  | .ok text =>
      match translate text (Path.stem? c.source) with
      | .error e => .error ⟨1, Report.render e text c.source, ""⟩
      | .ok assembly => .ok assembly

/-- The end of a command that has tried to write. -/
def written (target : String) : Except FileError Unit → Exit
  | .ok _ => ⟨0, "", ""⟩
  | .error e => ⟨1, "", "Failed to write " ++ target ++ ": " ++ e.message ++ "\n"⟩

/-- Prints or writes the assembly text. -/
def deliver {m : Type → Type} [Monad m] (files : Files m) (c : Command) (assembly : String) :
    m Exit := do
  match c.target with
  | none => return ⟨0, assembly, ""⟩
  | some target => return written target (← files.write target assembly)

def run {m : Type → Type} [Monad m] (files : Files m) (arguments : List String) : m Exit := do
  match ofArguments arguments with
  | .error exit => return exit
  | .ok command =>
      match command.assembly (← files.read command.source) with
      | .error exit => return exit
      | .ok assembly => command.deliver files assembly

/-- Runs a command line on a tree of files. -/
def runOn (t : FileTree) (arguments : List String) : Exit × FileTree :=
  (run FileTree.files arguments).run t

end Command

end Octet
