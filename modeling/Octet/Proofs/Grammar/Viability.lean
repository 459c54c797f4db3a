import Octet.Proofs.Grammar.Hints
import Octet.Proofs.Grammar.Likeness
import Octet.Proofs.Grammar.Lockstep

/-!
Errors are as early as they can be, and their hints are right. A row of kinds is
viable if it begins the kinds of some program. When reading fails, the kinds in
front of the token that is blamed are viable, so that nothing before it was
wrong. The kind of the token itself is not, unless it is a number that is no
byte; and each of the kinds that the error names could have stood there.

That a token cannot stand where it is blamed is seen from the other side. Tokens
of a program that begins with the same kinds could be put behind it, and reading
would not notice before it had passed the token, which it never does.
-/

namespace Octet

namespace Grammar

open Outcome Cursor

/-! ### Viable rows of kinds -/

/-- A program can be written in tokens of these kinds. -/
def Sentence (ks : List Token.Kind) : Prop :=
  ∃ tokens p, DerivesProgram tokens p ∧ tokens.map Token.kind = ks

/-- A program can begin with tokens of these kinds. -/
def Viable (ks : List Token.Kind) : Prop := ∃ more, Sentence (ks ++ more)

/-- The error is about the token, and right about it if these tokens stand in
front of it. -/
inductive Justified (front : List Token) (t : Token) : ParseError → Prop where
  | unexpected {expected : List Token.Kind} : ¬ Viable ((front ++ [t]).map Token.kind) →
      expected ≠ [] → (∀ k ∈ expected, Viable (front.map Token.kind ++ [k])) →
      Justified front t (.unexpected expected t.kind t.position)
  | outOfRange : t.kind = .number → (∀ b, ¬ SpellsByte t.value b) →
      Viable ((front ++ [t]).map Token.kind) →
      Justified front t (.outOfRange t.value t.position)

theorem Viable.of_append {ks more : List Token.Kind} (h : Viable (ks ++ more)) : Viable ks := by
  obtain ⟨rest, hsentence⟩ := h
  exact ⟨more ++ rest, by rwa [← List.append_assoc]⟩

/-! ### The beginning of a program -/

def LineEndAtMost (ts : List Token) : Prop := ts = [] ∨ ∃ nl : Token, nl.kind = .newline ∧ ts = [nl]

theorem tokens_skipLineEnd (c : Cursor) :
    ∃ lead, LineEndAtMost lead ∧ c.tokens = lead ++ c.skipLineEnd.tokens := by
  by_cases hk : c.kind = .newline
  · refine ⟨[c.current], .inr ⟨c.current, hk, rfl⟩, ?_⟩
    rw [skipLineEnd, if_pos hk]
    exact tokens_eq_cons (by simp [hk])
  · refine ⟨[], .inl rfl, ?_⟩
    rw [skipLineEnd, if_neg hk]
    rfl

theorem LineEndAtMost.spelled {ts : List Token} (h : LineEndAtMost ts) : AllSpelled ts := by
  rcases h with rfl | ⟨nl, hnl, rfl⟩
  · exact .nil
  · exact .single (spelled_of_kind hnl)

theorem DerivesFunctions.program {lead ts : List Token} {fs : List Function}
    (hlead : LineEndAtMost lead) (h : DerivesFunctions ts fs) :
    ∃ p, DerivesProgram (lead ++ ts ++ [sample .eof]) p := by
  rcases hlead with rfl | ⟨nl, hnl, rfl⟩
  · obtain ⟨first, hfirst⟩ : ∃ first, (ts ++ [sample .eof]).head? = some first :=
      Option.isSome_iff_exists.mp (by simp)
    exact ⟨⟨fs, first.position⟩, .plain h rfl (congrArg (Option.map Token.position) hfirst)⟩
  · exact ⟨_, .behindLineEnd hnl h rfl⟩

theorem viable_of_extends {lead front : List Token} {k : Token.Kind}
    (hlead : LineEndAtMost lead) (h : Extends DerivesFunctions front k) :
    Viable ((lead ++ front).map Token.kind ++ [k]) := by
  obtain ⟨t, more, fs, rfl, hfs⟩ := h
  obtain ⟨p, hp⟩ := hfs.program hlead
  exact ⟨(more ++ [sample .eof]).map Token.kind, _, p, hp, by simp⟩

/-! ### Programs that begin with given tokens -/

theorem DerivesProgram.cursor {ts : List Token} {p : Program} (h : DerivesProgram ts p) :
    ∃ c : Cursor, c.tokens = ts := by
  cases h with
  | plain _ hstop _ => exact ⟨⟨_, _, hstop⟩, rfl⟩
  | behindLineEnd _ _ hstop => exact ⟨⟨_ :: _, _, hstop⟩, rfl⟩

/-- Tokens of the same kinds can stand for others if their numbers are bytes. -/
theorem standsFor_of_kinds {ts ts' : List Token} (hkinds : ts.map Token.kind = ts'.map Token.kind)
    (hspelled : AllSpelled ts') : List.Forall₂ (StandsFor False) ts ts' := by
  induction ts' generalizing ts with
  | nil =>
      rw [List.map_eq_nil_iff.mp hkinds]
      exact .nil
  | cons t' ts' ih =>
      obtain ⟨t, ts, rfl, ht, hts⟩ := List.map_eq_cons_iff.mp hkinds
      refine .cons ⟨ht.symm, fun b hk _ => ?_, False.elim⟩ (ih hts fun u hu => ?_)
      · exact hspelled t' (List.mem_cons_self ..) (ht.symm.trans hk)
      · exact hspelled u (List.mem_cons_of_mem _ hu)

/-- If a program can begin with the kinds of some tokens, then there is one that
begins with the tokens. -/
theorem Viable.cursor {ts : List Token} (h : Viable (ts.map Token.kind))
    (hspelled : AllSpelled ts) :
    ∃ (c : Cursor) (behind : List Token) (fs : List Function), c.tokens = ts ++ behind ∧
      DerivesFunctions c.skipLineEnd.ahead fs := by
  obtain ⟨more, row, p, hp, hkinds⟩ := h
  obtain ⟨us, behind, rfl, hus, -⟩ := List.map_eq_append_iff.mp hkinds
  have hbehind : List.Forall₂ (StandsFor False) behind behind :=
    List.forall₂_same.mpr fun t _ => ⟨rfl, fun b _ hb => ⟨b, hb⟩, False.elim⟩
  obtain ⟨p', hp', -⟩ :=
    hp.standsFor (List.rel_append (standsFor_of_kinds hus hspelled) hbehind)
  obtain ⟨c, hc⟩ := hp'.cursor
  rw [← hc] at hp'
  obtain ⟨fs, hfs, -⟩ := derivesProgram_iff.mp hp'
  exact ⟨c, behind, fs, hc, hfs⟩

/-! ### Reading a program that begins alike -/

theorem functions_same_skipLineEnd {F : Fork} {c c' : Cursor} (ht : Twin F c c') {n n' : Nat}
    (h : c.skipLineEnd.size < n) (h' : c'.skipLineEnd.size < n') :
    Same F (functions .standard c.skipLineEnd h) (functions .standard c'.skipLineEnd h') := by
  by_cases hk : c.kind = .newline
  · have hskip : c.skipLineEnd = c.advance := if_pos hk
    have hskip' : c'.skipLineEnd = c'.advance := if_pos (ht.kind.trans hk)
    have hend : c.kind ≠ .eof := by simp [hk]
    rcases ht.atFork_or with hc | ⟨-, -, hadvance⟩
    · have hshrinks := (functions_stay .standard c.skipLineEnd h).shrinks
      have hbehind : c.skipLineEnd.tokens = F.behindLeft := hskip ▸ advance_tokens hc hend
      rw [Shrinks, hbehind] at hshrinks
      exact .past hshrinks
    · exact functions_same (hskip ▸ hskip' ▸ hadvance hend) h h'
  · have hskip : c.skipLineEnd = c := if_neg hk
    have hskip' : c'.skipLineEnd = c' := if_neg (ht.kind ▸ hk)
    exact functions_same (by rwa [hskip, hskip']) h h'

/-- A token at which reading stops, without having read it, begins nothing that
the tokens in front of it do. -/
theorem not_viable_of_failed {c : Cursor} {n : Nat} {h : c.skipLineEnd.size < n} {e : ParseError}
    {stop : Cursor} (hfailed : functions .standard c.skipLineEnd h = .failed e stop)
    {front behind : List Token} {t : Token} (hc : c.tokens = front ++ t :: behind)
    (hstop : stop.tokens = t :: behind) (hspelled : AllSpelled front) :
    ¬ Viable ((front ++ [t]).map Token.kind) := by
  intro hviable
  -- The token may be a number that is no byte, so another one stands in for it.
  let t' : Token := { t with value := "0" }
  have hkinds : (front ++ [t]).map Token.kind = (front ++ [t']).map Token.kind := by simp [t']
  have hspelled' : AllSpelled (front ++ [t']) :=
    hspelled.append (.single fun _ => ⟨0, spellsByte_zero⟩)
  obtain ⟨c', behind', fs, hc', hfs⟩ := Viable.cursor (hkinds ▸ hviable) hspelled'
  obtain ⟨_, hdone⟩ := functions_read hfs (Nat.lt_succ_self c'.skipLineEnd.size)
  let F : Fork := ⟨t, t', behind, behind', rfl, rfl⟩
  have ht : Twin F c c' := ⟨front, hc, by simpa using hc'⟩
  have hsame := functions_same_skipLineEnd ht h (Nat.lt_succ_self _)
  rw [hfailed] at hsame
  generalize hread : functions .standard c'.skipLineEnd (Nat.lt_succ_self _) = o at hsame
  cases hsame with
  | past hpast =>
      have hlength : stop.tokens.length ≤ behind.length := hpast
      rw [hstop, List.length_cons] at hlength
      omega
  | failed _ => cases hread.symm.trans hdone

end Grammar

open Grammar Outcome

/-- Tokens that make no program are wrong at one of them and not before: a
program can begin with the kinds in front of it, and every number there is a
byte. If the kind of the token is unexpected, no program goes on with it, and
with each of the expected kinds some program does. If the token is a number out
of range, its kind is as good as those in front of it. -/
theorem Program.ofTokens_error_earliest {tokens : List Token} {e : ParseError}
    (he : ofTokens tokens = .error e) :
    ∃ front t behind, withEnd tokens = front ++ t :: behind ∧ Viable (front.map Token.kind) ∧
      AllSpelled front ∧ Justified front t e := by
  obtain ⟨stop, hfailed⟩ : ∃ stop, Grammar.functions .standard (Cursor.ofTokens tokens).skipLineEnd
      (Nat.lt_succ_self _) = .failed e stop := failed_of_result (Result.map_error.mp he)
  have hhints := functions_hints .standard (Cursor.ofTokens tokens).skipLineEnd
    (Nat.lt_succ_self _)
  rw [hfailed] at hhints
  obtain ⟨front, t, behind, hskip, hblames⟩ := hhints
  obtain ⟨lead, hlead, hc⟩ := tokens_skipLineEnd (Cursor.ofTokens tokens)
  rw [hskip, ← List.append_assoc] at hc
  have hspelled : AllSpelled (lead ++ front) := by
    obtain ⟨k, u, more, fs, -, hfs⟩ := hblames.extends
    exact hlead.spelled.append fun u hu => hfs.spelled u (List.mem_append_left _ hu)
  refine ⟨lead ++ front, t, behind, ?_, ?_, hspelled, ?_⟩
  · rw [← ofTokens_append_last]
    exact hc
  · obtain ⟨k, hk⟩ := hblames.extends
    exact (viable_of_extends hlead hk).of_append
  · cases hblames with
    | unexpected hstop hne hexpected =>
        exact .unexpected (not_viable_of_failed hfailed hc hstop hspelled) hne fun k hk =>
          viable_of_extends hlead (hexpected k hk)
    | outOfRange hkind hbyte hnumber =>
        refine .outOfRange hkind hbyte ?_
        rw [List.map_append, List.map_singleton, hkind]
        exact viable_of_extends hlead hnumber

/-- A line lacks its last operand. If a number in front of that place is too
large, it is the number that is blamed. -/
theorem Program.ofTokens_error_earliest_operand : ∃ missing large,
    ofTokens missing = .error (.unexpected atomStart .newline ⟨4, 21⟩) ∧
    (∃ front t behind, withEnd missing = front ++ t :: behind ∧ Viable (front.map Token.kind) ∧
      AllSpelled front ∧ Justified front t (.unexpected atomStart .newline ⟨4, 21⟩)) ∧
    ofTokens large = .error (.outOfRange "256" ⟨4, 15⟩) ∧
    ∃ front t behind, withEnd large = front ++ t :: behind ∧ Viable (front.map Token.kind) ∧
      AllSpelled front ∧ Justified front t (.outOfRange "256" ⟨4, 15⟩) := by
  let read (source : String) : List Token := (Token.scan source).toOption.getD []
  let missing := read "
def f(a: u8) -> void:
    if a == 255:
        a = f(255) +
"
  let large := read "
def f(a: u8) -> void:
    if a == 255:
        a = f(256) +
"
  have hmissing : (ofTokens missing).map (fun _ => ()) =
      .error (.unexpected atomStart .newline ⟨4, 21⟩) := by decide +kernel
  have hlarge : (ofTokens large).map (fun _ => ()) = .error (.outOfRange "256" ⟨4, 15⟩) := by
    decide +kernel
  have hmissing := Result.map_error.mp hmissing
  have hlarge := Result.map_error.mp hlarge
  exact ⟨missing, large, hmissing, ofTokens_error_earliest hmissing, hlarge,
    ofTokens_error_earliest hlarge⟩

end Octet
