import Mathlib.Logic.Relation
import Octet.Proofs.Grammar.Likeness
import Octet.Proofs.Lowering.Linking
import Octet.Proofs.Lowering.Renaming
import Octet.Proofs.Token.Spacing
import Octet.Proofs.Tree.Positions

/-!
The code of a text does not depend on space that means nothing. Such space moves
tokens and changes nothing else about them, so the programs of the two texts
differ in their positions only. Neither the check nor the code of a program looks
at its positions: only errors do.
-/

namespace Octet

namespace Program

open Grammar

/-- A program passes the check if it passes without its positions. -/
theorem typeCheck_bare (p : Program) : p.bare.typeCheck = .ok () ↔ p.typeCheck = .ok () := by
  rw [← renamed_bare, typeCheck_renamed Function.injective_id fun f _ => f.fixed_id,
    Result.mapError_ok]

/-- A program has the code that it has without its positions. -/
theorem assembly_bare (p : Program) {snapshot : Option String} {text : String} :
    p.bare.assembly snapshot = .ok text ↔ p.assembly snapshot = .ok text := by
  rw [← renamed_bare, assembly_renamed Function.injective_id rfl, Result.mapError_ok]

/-- Texts with the same tokens have the same program, but for its positions. -/
theorem ofSource_alike {source source' : String} {tokens tokens' : List Token} {p : Program}
    (hscan : Token.scan source = .ok tokens) (hscan' : Token.scan source' = .ok tokens')
    (halike : List.Forall₂ Token.Alike tokens tokens') (h : ofTokens tokens = .ok p) :
    ∃ p', ofTokens tokens' = .ok p' ∧ p'.bare = p.bare := by
  have hstands : List.Forall₂ (StandsFor True) tokens tokens' :=
    halike.imp fun t t' ht => ⟨ht.kind, fun b _ hb => ⟨b, by rwa [ht.value]⟩, fun _ => ht.value⟩
  obtain ⟨p', hp', hbare⟩ := ((ofTokens_ok_of_scan hscan).mp h).standsFor hstands
  exact ⟨p', (ofTokens_ok_of_scan hscan').mpr hp', hbare trivial⟩

end Program

open Source Token

theorem compile_of_sameText {source source' : String} {snapshot : Option String} {text : String}
    (hsame : SameText (Source.lines source.toList) (Source.lines source'.toList))
    (h : compile source snapshot = .ok text) : compile source' snapshot = .ok text := by
  obtain ⟨p, hread, hcheck, htext⟩ := compile_ok.mp h
  obtain ⟨tokens, hscan, hread⟩ := Program.ofSource_ok.mp hread
  obtain ⟨tokens', hscan', halike⟩ := scan_of_sameText hsame hscan
  obtain ⟨p', hread', hbare⟩ := Program.ofSource_alike hscan hscan' halike hread
  refine compile_ok.mpr ⟨p', Program.ofSource_ok.mpr ⟨tokens', hscan', hread'⟩, ?_, ?_⟩
  · rwa [← p'.typeCheck_bare, hbare, p.typeCheck_bare]
  · rwa [← p'.assembly_bare, hbare, p.assembly_bare]

/-- Whatever spaces are put at the ends of lines and of the text, and whatever
lines of spaces are put between lines, a text has the same code. -/
theorem compile_loosened {source source' : String}
    (h : Relation.ReflTransGen Loosens source.toList source'.toList) (snapshot : Option String)
    (text : String) : compile source snapshot = .ok text ↔ compile source' snapshot = .ok text := by
  have hsteps {cs cs' : List Char} (h : Relation.ReflTransGen Loosens cs cs') :
      compile (String.ofList cs) snapshot = .ok text ↔
        compile (String.ofList cs') snapshot = .ok text := by
    induction h with
    | refl => rfl
    | tail _ hstep ih =>
        have hsame := sameText_of_loosens hstep
        rw [ih]
        constructor
        · exact compile_of_sameText (by simpa using hsame)
        · exact compile_of_sameText (by simpa using hsame.symm)
  simpa using hsteps h

/-- Spaces behind a line, a line of spaces inside a block and spaces behind the
last line, where a block ends. -/
theorem compile_loosened_block : ∃ text,
    compile "def main() -> void:\n    if true:\n        print(1)\n" none = .ok text ∧
    compile "def main() -> void:  \n    if true:\n \n        print(1)\n   " none = .ok text := by
  have hcompiles : (compile "def main() -> void:\n    if true:\n        print(1)\n"
      none).toOption.isSome = true := by decide +kernel
  obtain ⟨text, htext⟩ := Option.isSome_iff_exists.mp hcompiles
  refine ⟨text, Result.ok_of_toOption htext, ?_⟩
  have hfirst := Loosens.lineEnd "def main() -> void:".toList
    "    if true:\n        print(1)\n".toList 2
  have hsecond := Loosens.emptyLine "def main() -> void:  \n    if true:".toList
    "        print(1)\n".toList 1
  have hthird := Loosens.textEnd
    "def main() -> void:  \n    if true:\n \n        print(1)\n".toList 3
  have hloosened : Relation.ReflTransGen Loosens
      "def main() -> void:\n    if true:\n        print(1)\n".toList
      "def main() -> void:  \n    if true:\n \n        print(1)\n   ".toList :=
    .tail (.tail (.single hfirst) hsecond) hthird
  exact (compile_loosened hloosened none text).mp (Result.ok_of_toOption htext)

end Octet
