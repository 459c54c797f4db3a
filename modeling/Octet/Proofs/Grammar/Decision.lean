import Octet.Proofs.Grammar.Completeness
import Octet.Proofs.Result
import Octet.Token.Scan

/-!
Reading decides the grammar. The rules read whatever the grammar derives and
nothing else, so a list of tokens makes a program just when the grammar derives
one from it. No list derives two programs, since reading it gives only one.
-/

namespace Octet

namespace Grammar

theorem ofTokens_append_last (tokens : List Token) :
    (Cursor.ofTokens tokens).ahead ++ [(Cursor.ofTokens tokens).last] = withEnd tokens := by
  unfold Cursor.ofTokens withEnd
  cases h : tokens.getLast? with
  | none => rfl
  | some t =>
      obtain ⟨ts, rfl⟩ := List.getLast?_eq_some_iff.mp h
      by_cases hk : t.kind = .eof
      · simp [hk]
      · simp [hk]

theorem ofTokens_ahead_kind {tokens : List Token} (h : ∀ t ∈ tokens.dropLast, t.kind ≠ .eof) :
    ∀ t ∈ (Cursor.ofTokens tokens).ahead, t.kind ≠ .eof := by
  unfold Cursor.ofTokens
  cases hlast : tokens.getLast? with
  | none => simp
  | some u =>
      by_cases hk : u.kind = .eof
      · simpa only [hk, dite_true] using h
      · obtain ⟨ts, rfl⟩ := List.getLast?_eq_some_iff.mp hlast
        rw [List.dropLast_concat] at h
        intro t ht
        simp only [hk, dite_false, List.mem_append, List.mem_singleton] at ht
        rcases ht with ht | rfl
        · exact h t ht
        · exact hk

/-- The functions that a cursor holds are read if they are all that it holds. -/
theorem functions_result {c : Cursor} (hc : ∀ t ∈ c.ahead, t.kind ≠ .eof) {n : Nat}
    (h : c.size < n) {fs : List Function} :
    (functions .standard c h).result = .ok fs ↔ DerivesFunctions c.ahead fs := by
  constructor
  · intro hresult
    have hread := functions_derive .standard c h
    cases hdone : functions .standard c h with
    | failed e c' => simp [hdone, Outcome.result] at hresult
    | done gs c' h' =>
        obtain rfl : gs = fs := by simpa [hdone, Outcome.result] using hresult
        -- Only the end of the text stops the functions, so that no token is left.
        have hend := kind_of_functions_done .standard c h hdone
        rw [hdone] at hread
        obtain ⟨ts, rfl, hts⟩ := hread
        rcases c' with ⟨_ | ⟨t, us⟩, last, hlast⟩
        · rwa [List.append_nil]
        · exact absurd hend (hc t (by simp))
  · intro hderives
    obtain ⟨h', hdone⟩ := functions_read hderives h
    rw [hdone]
    rfl

theorem DerivesFunctions.start {ts : List Token} {fs : List Function}
    (h : DerivesFunctions ts fs) : headKind ts ≠ .newline := by
  cases h with
  | nil => decide
  | cons h _ =>
      rw [h.start]
      decide

/-- A program is the functions behind the line end in front, and has the
position of its first token. -/
theorem derivesProgram_iff {c : Cursor} {p : Program} :
    DerivesProgram (c.ahead ++ [c.last]) p ↔
      ∃ fs, DerivesFunctions c.skipLineEnd.ahead fs ∧ ⟨fs, c.current.position⟩ = p := by
  rcases c with ⟨ahead, last, hlast⟩
  show DerivesProgram (ahead ++ [last]) p ↔ _
  have hhead : (ahead ++ [last]).head? = some (Cursor.current ⟨ahead, last, hlast⟩) := by
    cases ahead <;> rfl
  constructor
  · intro h
    generalize hrow : ahead ++ [last] = row at h
    cases h with
    | plain hfs hstop hp =>
        obtain ⟨rfl, rfl⟩ := List.append_singleton_inj.mp hrow
        rw [hhead] at hp
        refine ⟨_, ?_, congrArg _ (Option.some.inj hp)⟩
        rwa [Cursor.skipLineEnd, kind_mk, if_neg hfs.start]
    | behindLineEnd hnl hfs hstop =>
        obtain ⟨rfl, rfl⟩ := List.append_singleton_inj.mp (hrow.trans (List.cons_append).symm)
        refine ⟨_, ?_, rfl⟩
        rwa [Cursor.skipLineEnd, kind_cons, if_pos hnl]
  · rintro ⟨fs, hfs, rfl⟩
    by_cases hk : headKind ahead = .newline
    · rw [Cursor.skipLineEnd, kind_mk, if_pos hk] at hfs
      cases ahead with
      | nil => cases hk
      | cons nl ts => exact .behindLineEnd hk hfs hlast
    · rw [Cursor.skipLineEnd, kind_mk, if_neg hk] at hfs
      exact .plain hfs hlast (by rw [hhead]; rfl)

end Grammar

namespace Program

open Grammar

/-- Tokens make a program just when the grammar derives functions from all of
them but a line end in front. -/
theorem ofTokens_ok {tokens : List Token} (h : ∀ t ∈ tokens.dropLast, t.kind ≠ .eof)
    {p : Program} : ofTokens tokens = .ok p ↔
      ∃ fs, DerivesFunctions (Cursor.ofTokens tokens).skipLineEnd.ahead fs ∧
        ⟨fs, (Cursor.ofTokens tokens).current.position⟩ = p := by
  have hahead := ofTokens_ahead_kind h
  have hskip : ∀ t ∈ (Cursor.ofTokens tokens).skipLineEnd.ahead, t.kind ≠ .eof := by
    intro t ht
    unfold Cursor.skipLineEnd at ht
    split at ht
    · exact hahead t (List.mem_of_mem_tail ht)
    · exact hahead t ht
  simp only [ofTokens, Result.map_ok, functions_result hskip]

/-- Reading decides the grammar: tokens make a program if and only if the
grammar derives the program from them, and it is the one that reading gives. -/
theorem ofTokens_iff_derives {tokens : List Token} (h : ∀ t ∈ tokens.dropLast, t.kind ≠ .eof)
    {p : Program} : ofTokens tokens = .ok p ↔ DerivesProgram (withEnd tokens) p := by
  rw [← ofTokens_append_last, derivesProgram_iff]
  exact ofTokens_ok h

/-- Operators of all kinds, in a list of tokens without an end. A comma behind
the last argument is in no sentence. -/
theorem ofTokens_iff_derives_operators : ∃ tokens rejected p,
    (∀ t ∈ tokens.dropLast, t.kind ≠ .eof) ∧ (∀ t ∈ rejected.dropLast, t.kind ≠ .eof) ∧
    DerivesProgram (withEnd tokens) p ∧ ∀ q, ¬ DerivesProgram (withEnd rejected) q := by
  let read (source : String) : List Token := ((Token.scan source).toOption.getD []).dropLast
  let tokens := read "
def f(a: u8, b: bool) -> bool:
    if 1 + a + -(+2) == 3 != b == f(a + 007, true):
        a = 255
    return f(a, (b))
"
  let rejected := read "
def f() -> void:
    f(1,)
"
  have htokens : ∀ t ∈ tokens.dropLast, t.kind ≠ .eof := by decide +kernel
  have hrejected : ∀ t ∈ rejected.dropLast, t.kind ≠ .eof := by decide +kernel
  have hread : (ofTokens tokens).toOption.isSome = true := by decide +kernel
  have hrefused : (ofTokens rejected).toOption = none := by decide +kernel
  obtain ⟨p, hp⟩ := Option.isSome_iff_exists.mp hread
  refine ⟨tokens, rejected, p, htokens, hrejected, ?_, fun q hq => ?_⟩
  · exact (ofTokens_iff_derives htokens).mp (Result.ok_of_toOption hp)
  · rw [(ofTokens_iff_derives hrejected).mpr hq] at hrefused
    cases hrefused

end Program

end Octet
