import Mathlib.Data.List.Chain
import Octet.Proofs.Token.Rows

/-!
What stands next to what among the tokens of a text. The end of a line follows
a lexeme and nothing else; behind it come the steps of the line below, all of
them in or all of them out, and behind those the lexemes of that line. Nothing
comes behind the end of the text.
-/

namespace Octet.Token

/-- What may stand directly behind a token. -/
inductive Follows : Token → Token → Prop where
  | lexeme {t u : Token} : t.kind.isLexeme = true → u.kind.isLexeme = true →
      u.position.line = t.position.line → Follows t u
  | lineEnd {t u : Token} : t.kind.isLexeme = true → u.kind = .newline →
      t.position.line ≤ u.position.line → Follows t u
  | textEnd {t u : Token} : t.kind.isLexeme = true → u.kind = .eof →
      u.position.line = t.position.line → Follows t u
  | row {t u : Token} : t.kind = .newline → u.kind ≠ .newline →
      u.position.line = t.position.line + 1 → Follows t u
  | again {t : Token} : t.kind.isStep = true → Follows t t
  | indented {t u : Token} : t.kind.isStep = true → (u.kind.isLexeme = true ∨ u.kind = .eof) →
      u.position.line = t.position.line → Follows t u

theorem isChain_lexemes {p : Position} {line : List Char} {lexemes ts : List Token}
    (h : ScansLine p line lexemes) (hts : ts.IsChain Follows)
    (hhead : ∀ u ∈ ts.head?, (u.kind = .newline ∧ p.line ≤ u.position.line) ∨
      (u.kind = .eof ∧ u.position.line = p.line)) :
    (lexemes ++ ts).IsChain Follows := by
  refine List.isChain_append.mpr ⟨?_, hts, fun t ht u hu => ?_⟩
  · apply List.Pairwise.isChain
    apply List.pairwise_of_forall_mem_list
    intro t ht u hu
    apply Follows.lexeme (h.isLexeme t ht) (h.isLexeme u hu)
    rw [h.position_line t ht, h.position_line u hu]
  · have hmem := List.mem_of_getLast? ht
    have hlexeme := h.isLexeme t hmem
    have hline := h.position_line t hmem
    rcases hhead u hu with ⟨hk, hu⟩ | ⟨hk, hu⟩
    · exact .lineEnd hlexeme hk (by omega)
    · exact .textEnd hlexeme hk (by omega)

theorem isChain_replicate {k : Kind} {m n : Nat} {us : List Token} (hk : k.isStep = true)
    (h : us.IsChain Follows)
    (hhead : ∀ u ∈ us.head?, (u.kind.isLexeme = true ∨ u.kind = .eof) ∧ u.position.line = n) :
    (List.replicate m (layoutStep k n) ++ us).IsChain Follows := by
  induction m with
  | zero => exact h
  | succ m ih =>
      refine List.isChain_cons.mpr ⟨fun u hu => ?_, ih⟩
      cases m with
      | zero =>
          obtain ⟨hu, hline⟩ := hhead u hu
          exact .indented hk hu hline
      | succ m =>
          cases hu
          exact .again hk

theorem isChain_row {d deeper : Nat} {p : Position} {us : List Token} (h : us.IsChain Follows)
    (hhead : ∀ u ∈ us.head?, (u.kind.isLexeme = true ∨ u.kind = .eof) ∧
      u.position.line = p.line + 1) :
    (lineEnd p :: (steps d deeper (p.line + 1) ++ us)).IsChain Follows := by
  obtain ⟨k, m, hk, hsteps⟩ := steps_eq_replicate d deeper (p.line + 1)
  rw [hsteps]
  have hne : k ≠ .newline := by
    rintro rfl
    cases hk
  -- Behind the line end comes the first step, or what the steps lead to if there is none.
  refine List.isChain_cons.mpr ⟨fun u hu => ?_, isChain_replicate hk h hhead⟩
  cases m with
  | zero =>
      obtain ⟨hu, hline⟩ := hhead u hu
      refine .row rfl (fun e => ?_) hline
      rw [e] at hu
      simp [Kind.isLexeme] at hu
  | succ m =>
      cases hu
      exact .row rfl hne rfl

theorem Rows.isChain {d n : Nat} {p : Position} {more : List (List Char)} {ts : List Token}
    (h : Rows d n p more ts) (hn : n = p.line + 1) : ts.IsChain Follows ∧
      ∀ u ∈ ts.head?, (u.kind = .newline ∧ p.line ≤ u.position.line) ∨
        (more = [] ∧ u = textEnd p) := by
  induction h with
  | done => simp
  | blank _ hmore _ ih =>
      obtain ⟨hchain, hhead⟩ := ih rfl
      refine ⟨hchain, fun u hu => ?_⟩
      rcases hhead u hu with ⟨hk, hline⟩ | ⟨hnil, -⟩
      · simp only at hline
        exact .inl ⟨hk, by omega⟩
      · exact absurd hnil hmore
  | @last d n p line hblank =>
      subst hn
      constructor
      · apply isChain_row (List.isChain_singleton _)
        rintro u ⟨⟩
        exact ⟨.inr rfl, rfl⟩
      · rintro u ⟨⟩
        exact .inl ⟨rfl, Nat.le_refl _⟩
  | @text d deeper n p line more lexemes ts _ hlexemes hne _ ih =>
      subst hn
      obtain ⟨hchain, hhead⟩ := ih rfl
      constructor
      · rw [List.append_assoc]
        apply isChain_row
        · apply isChain_lexemes hlexemes hchain
          intro u hu
          rcases hhead u hu with h | ⟨-, rfl⟩
          · exact .inl h
          · exact .inr ⟨rfl, rfl⟩
        · intro u hu
          rw [List.head?_append_of_ne_nil _ hne] at hu
          have hmem := List.mem_of_mem_head? hu
          exact ⟨.inl (hlexemes.isLexeme u hmem), hlexemes.position_line u hmem⟩
      · rintro u ⟨⟩
        exact .inl ⟨rfl, Nat.le_refl _⟩

theorem isChain_of_scan {source : String} {tokens : List Token} (h : scan source = .ok tokens) :
    tokens.IsChain Follows := by
  obtain ⟨first, more, lexemes, ts, hlines, hlexemes, hrows, rfl⟩ := scan_ok.mp h
  obtain ⟨hchain, hhead⟩ := hrows.isChain rfl
  apply isChain_lexemes hlexemes hchain
  intro u hu
  rcases hhead u hu with h | ⟨-, rfl⟩
  · exact .inl h
  · exact .inr ⟨rfl, rfl⟩

/-! ### From a lexeme to the next -/

theorem Follows.kind_ne_eof {t u : Token} (h : Follows t u) : t.kind ≠ .eof := by
  intro hk
  cases h <;> simp_all [Kind.isLexeme, Kind.isStep]

theorem Follows.of_lexeme {t u : Token} (h : Follows t u) (ht : t.kind.isLexeme = true) :
    (u.kind = .newline ∧ t.position.line ≤ u.position.line) ∨
      ((u.kind.isLexeme = true ∨ u.kind = .eof) ∧ u.position.line = t.position.line) := by
  have hstep := isStep_of_isLexeme ht
  cases h with
  | lexeme _ hu hline => exact .inr ⟨.inl hu, hline⟩
  | lineEnd _ hu hline => exact .inl ⟨hu, hline⟩
  | textEnd _ hu hline => exact .inr ⟨.inr hu, hline⟩
  | row hk => simp [hk, Kind.isLexeme] at ht
  | again hk => simp [hk] at hstep
  | indented hk => simp [hk] at hstep

theorem Follows.of_newline {t u : Token} (h : Follows t u) (ht : t.kind = .newline) :
    u.kind ≠ .newline ∧ u.position.line = t.position.line + 1 := by
  cases h with
  | row _ hu hline => exact ⟨hu, hline⟩
  | lexeme hk | lineEnd hk | textEnd hk | again hk | indented hk =>
      rw [ht] at hk
      cases hk

theorem Follows.of_step {t u : Token} (h : Follows t u) (ht : t.kind.isStep = true) :
    u = t ∨ ((u.kind.isLexeme = true ∨ u.kind = .eof) ∧ u.position.line = t.position.line) := by
  cases h with
  | again _ => exact .inl rfl
  | indented _ hu hline => exact .inr ⟨hu, hline⟩
  | row hk =>
      rw [hk] at ht
      cases ht
  | lexeme hk | lineEnd hk | textEnd hk =>
      rw [isStep_of_isLexeme hk] at ht
      cases ht

theorem Follows.isLexeme_of_newline {t u : Token} (h : Follows t u) (hu : u.kind = .newline) :
    t.kind.isLexeme = true := by
  rcases kind_cases t.kind with ht | ht | ht | ht
  · exact ht
  · rcases h.of_step ht with rfl | ⟨hk | hk, -⟩
    · rw [hu] at ht
      cases ht
    · rw [hu] at hk
      cases hk
    · rw [hu] at hk
      cases hk
  · exact absurd hu (h.of_newline ht).1
  · exact absurd ht h.kind_ne_eof

/-- Nothing stands behind the end of the text. -/
theorem kind_ne_eof_of_isChain {t u : Token} {mid behind : List Token}
    (h : (t :: (mid ++ u :: behind)).IsChain Follows) : t.kind ≠ .eof := by
  cases mid with
  | nil => exact (List.isChain_cons_cons.mp h).1.kind_ne_eof
  | cons s mid => exact (List.isChain_cons_cons.mp h).1.kind_ne_eof

/-- Nothing but steps stands between a step and the next lexeme. -/
theorem isStep_between {t u : Token} {mid behind : List Token} (ht : t.kind.isStep = true)
    (h : (t :: (mid ++ u :: behind)).IsChain Follows)
    (hmid : ∀ s ∈ mid, s.kind.isLexeme = false) :
    (∀ s ∈ mid, s.kind.isStep = true) ∧ u.position.line = t.position.line := by
  induction mid with
  | nil =>
      refine ⟨by simp, ?_⟩
      rcases (List.isChain_cons_cons.mp h).1.of_step ht with rfl | ⟨-, hline⟩
      · rfl
      · exact hline
  | cons s mid ih =>
      obtain ⟨hfollows, hrest⟩ := List.isChain_cons_cons.mp h
      rcases hfollows.of_step ht with rfl | ⟨hs | hs, -⟩
      · obtain ⟨hsteps, hline⟩ := ih hrest fun r hr => hmid r (by simp [hr])
        refine ⟨fun r hr => ?_, hline⟩
        rcases List.mem_cons.mp hr with rfl | hr
        · exact ht
        · exact hsteps r hr
      · simp [hs] at hmid
      · exact absurd hs (kind_ne_eof_of_isChain hrest)

/-- Between the end of a line and the next lexeme stand the steps in front of
the line below. -/
theorem isStep_behind_newline {e u : Token} {mid behind : List Token} (he : e.kind = .newline)
    (h : (e :: (mid ++ u :: behind)).IsChain Follows)
    (hmid : ∀ s ∈ mid, s.kind.isLexeme = false) :
    (∀ s ∈ mid, s.kind.isStep = true) ∧ u.position.line = e.position.line + 1 := by
  cases mid with
  | nil => exact ⟨by simp, ((List.isChain_cons_cons.mp h).1.of_newline he).2⟩
  | cons s mid =>
      obtain ⟨hfollows, hrest⟩ := List.isChain_cons_cons.mp h
      obtain ⟨hnewline, hs⟩ := hfollows.of_newline he
      -- A line end is followed by neither a line end nor a lexeme here, and not by the end.
      have hstep : s.kind.isStep = true := by
        rcases kind_cases s.kind with hk | hk | hk | hk
        · simp [hk] at hmid
        · exact hk
        · exact absurd hk hnewline
        · exact absurd hk (kind_ne_eof_of_isChain hrest)
      obtain ⟨hsteps, hline⟩ := isStep_between hstep hrest fun r hr => hmid r (by simp [hr])
      refine ⟨fun r hr => ?_, by rw [hline, hs]⟩
      rcases List.mem_cons.mp hr with rfl | hr
      · exact hstep
      · exact hsteps r hr

/-- Two lexemes with none between them stand on one line, or the end of a line
and the steps of the line below stand between them. -/
theorem lexeme_behind_lexeme {t u : Token} {mid behind : List Token}
    (ht : t.kind.isLexeme = true) (h : (t :: (mid ++ u :: behind)).IsChain Follows)
    (hu : u.kind.isLexeme = true) (hmid : ∀ s ∈ mid, s.kind.isLexeme = false) :
    (mid = [] ∧ u.position.line = t.position.line) ∨ ∃ e ss, mid = e :: ss ∧ e.kind = .newline ∧
      (∀ s ∈ ss, s.kind.isStep = true) ∧ t.position.line ≤ e.position.line ∧
      u.position.line = e.position.line + 1 := by
  cases mid with
  | nil =>
      left
      refine ⟨rfl, ?_⟩
      rcases (List.isChain_cons_cons.mp h).1.of_lexeme ht with ⟨hk, -⟩ | ⟨-, hline⟩
      · rw [hk] at hu
        cases hu
      · exact hline
  | cons e ss =>
      right
      obtain ⟨hfollows, hrest⟩ := List.isChain_cons_cons.mp h
      rcases hfollows.of_lexeme ht with ⟨hk, hle⟩ | ⟨hk | hk, -⟩
      · obtain ⟨hsteps, hline⟩ := isStep_behind_newline hk hrest fun r hr => hmid r (by simp [hr])
        exact ⟨e, ss, rfl, hk, hsteps, hle, hline⟩
      · simp [hk] at hmid
      · exact absurd hk (kind_ne_eof_of_isChain hrest)

/-- The steps in front of a line come to its first lexeme, or to the end of the
text. -/
theorem exists_behind_step {t : Token} {behind : List Token} (ht : t.kind.isStep = true)
    (h : (t :: behind).IsChain Follows) (hlast : ∀ u ∈ (t :: behind).getLast?, u.kind = .eof) :
    ∃ ss u rest, behind = ss ++ u :: rest ∧ (∀ s ∈ ss, s = t) ∧
      (u.kind.isLexeme = true ∨ u.kind = .eof) ∧ u.position.line = t.position.line := by
  induction behind with
  | nil =>
      rw [hlast t rfl] at ht
      cases ht
  | cons s behind ih =>
      obtain ⟨hfollows, hrest⟩ := List.isChain_cons_cons.mp h
      rw [List.getLast?_cons_cons] at hlast
      rcases hfollows.of_step ht with rfl | ⟨hs, hline⟩
      · obtain ⟨ss, u, rest, rfl, hss, hu, hline⟩ := ih hrest hlast
        refine ⟨s :: ss, u, rest, rfl, fun r hr => ?_, hu, hline⟩
        rcases List.mem_cons.mp hr with rfl | hr
        · rfl
        · exact hss r hr
      · exact ⟨[], s, behind, rfl, by simp, hs, hline⟩

theorem exists_textEnd_of_scan {source : String} {tokens : List Token}
    (h : scan source = .ok tokens) : ∃ before q, tokens = before ++ [textEnd q] := by
  obtain ⟨first, more, lexemes, ts, -, -, hrows, rfl⟩ := scan_ok.mp h
  obtain ⟨us, rfl⟩ := hrows.exists_textEnd
  exact ⟨lexemes ++ us, _, (List.append_assoc _ _ _).symm⟩

theorem kind_getLast?_of_scan {source : String} {tokens : List Token}
    (h : scan source = .ok tokens) : ∀ u ∈ tokens.getLast?, u.kind = .eof := by
  obtain ⟨before, q, rfl⟩ := exists_textEnd_of_scan h
  simp [textEnd]

/-- The end of a text comes last, and nowhere else. -/
theorem kind_ne_eof_of_scan {source : String} {before : List Token} {last : Token}
    (h : scan source = .ok (before ++ [last])) : ∀ t ∈ before, t.kind ≠ .eof := by
  intro t ht
  have hchain := isChain_of_scan h
  obtain ⟨us, vs, rfl⟩ := List.append_of_mem ht
  rw [List.append_assoc, List.cons_append] at hchain
  exact kind_ne_eof_of_isChain hchain.right_of_append

end Octet.Token
