import Octet.Diagnostic.Error
import Octet.Grammar.Program
import Octet.Lowering.Program
import Octet.Typing.Program

/-!
From a source text to its assembly text: tokens, a program, its types, its
code. The first stage that fails decides the error.
-/

namespace Octet

namespace Program

/-- The program of a source text, whatever its types. -/
def ofSource (source : String) : Except CompileError Program := do
  let tokens ← (Token.scan source).mapError .scan
  (Program.ofTokens tokens).mapError .parse

end Program

/-- Reads a piece of a program by its rule from a text that starts with it. -/
def readPiece {α : Type} (rule : (c : Cursor) → Outcome α c.size) (source : String) :
    Except CompileError α := do
  let tokens ← (Token.scan source).mapError .scan
  (rule (Cursor.ofTokens tokens).skipLineEnd).result.mapError .parse

/-- The assembly text of a source text. With a name for a snapshot the
assembler saves one under it. -/
def compile (source : String) (snapshot : Option String) : Except CompileError String := do
  let program ← Program.ofSource source
  program.typeCheck.mapError .typing
  (program.assembly snapshot).mapError .codegen

end Octet
