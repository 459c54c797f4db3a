import Octet.Grammar.Stmt
import Octet.Tree.Program

/-!
The rules for functions and programs:

    program    := newline? function* eof
    function   := "def" identifier "(" parameters ")" "->" type ":" newline block
    parameters := (identifier ":" type ("," identifier ":" type)*)?
-/

namespace Octet

namespace Grammar

/-- Parameters between commas, at least one. -/
def parameters (c : Cursor) : Outcome (List Parameter) c.size :=
  (c.take .identifier).andThen fun name c₁ h₁ =>
  (c₁.take .colon).within h₁ fun _ c₂ h₂ _ =>
  (type c₂).within h₂ fun ty c₃ h₃ _ =>
    if c₃.kind = .comma then
      (c₃.take .comma).within h₃ fun _ c₄ h₄ _ =>
      (parameters c₄).within h₄ fun more c₅ h₅ _ =>
      .done (⟨name.value, ty, name.position⟩ :: more) c₅ h₅
    else
      .done [⟨name.value, ty, name.position⟩] c₃ h₃
termination_by c.size

def parameterList (c : Cursor) {n : Nat} (h : c.size < n) : Outcome (List Parameter) n :=
  if c.kind = .rightParen then
    .done [] c h
  else
    (parameters c).within h fun ps c₁ h₁ _ =>
    .done ps c₁ h₁

def function (d : Dispatch) (c : Cursor) : Outcome Function c.size :=
  (c.take .kwDef).andThen fun start c₁ h₁ =>
  (c₁.take .identifier).within h₁ fun name c₂ h₂ _ =>
  (c₂.take .leftParen).within h₂ fun _ c₃ h₃ _ =>
  (parameterList c₃ h₃).andThen fun ps c₄ h₄ =>
  (c₄.take .rightParen).within h₄ fun _ c₅ h₅ _ =>
  (c₅.take .arrow).within h₅ fun _ c₆ h₆ _ =>
  (type c₆).within h₆ fun returns c₇ h₇ _ =>
  (c₇.take .colon).within h₇ fun _ c₈ h₈ _ =>
  (c₈.take .newline).within h₈ fun _ c₉ h₉ _ =>
  (block d c₉).within h₉ fun body c₁₀ h₁₀ _ =>
  .done ⟨name.value, ps, returns, body, start.position⟩ c₁₀ h₁₀

def functions (d : Dispatch) (c : Cursor) {n : Nat} (h : c.size < n) :
    Outcome (List Function) n :=
  if c.kind = .eof then
    .done [] c h
  else
    (function d c).within h fun first c₁ h₁ _ =>
    (functions d c₁ h₁).andThen fun more c₂ h₂ =>
    .done (first :: more) c₂ h₂
termination_by c.size

end Grammar

namespace Cursor

/-- The cursor after the line end that stands in front, if one does. -/
def skipLineEnd (c : Cursor) : Cursor := if c.kind = .newline then c.advance else c

end Cursor

namespace Program

def ofTokens (tokens : List Token) : Except ParseError Program :=
  let start := Cursor.ofTokens tokens
  (Grammar.functions .standard start.skipLineEnd (Nat.lt_succ_self _)).result.map fun functions =>
    ⟨functions, start.current.position⟩

end Program

end Octet
