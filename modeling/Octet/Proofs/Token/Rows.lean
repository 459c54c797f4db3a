import Octet.Proofs.Token.Lexemes

/-!
The tokens of a text as rows, one for each line that holds more than spaces.

A row is the end of the line before it, the steps of indentation between the
two lines, and the lexemes of the line. A line that holds only spaces is passed
over: the end of the line in front of it is dropped, and the end of the line
that it ends itself stands for both. Only the last line of a text has a row
though it holds nothing. Scanning a text gives the rows of its lines.
-/

namespace Octet.Token

/-- A line that holds only spaces, or nothing. -/
def Blank (line : List Char) : Prop := ∀ c ∈ line, c = ' '

/-- The steps from the depth of a line to that of the line with the number. -/
def steps (depth deeper number : Nat) : List Token :=
  List.replicate (deeper - depth) (layoutStep .indent number) ++
    List.replicate (depth - deeper) (layoutStep .dedent number)

/-- The tokens from the end of a line on, without the ends of lines that hold
nothing. -/
inductive Rows : Nat → Nat → Position → List (List Char) → List Token → Prop where
  | done {d n : Nat} {p : Position} : Rows d n p [] [textEnd p]
  | blank {d n : Nat} {p : Position} {line : List Char} {more : List (List Char)}
      {ts : List Token} : Blank line → more ≠ [] →
      Rows d (n + 1) ⟨n, 1 + Source.byteLength line⟩ more ts → Rows d n p (line :: more) ts
  | last {d n : Nat} {p : Position} {line : List Char} : Blank line →
      Rows d n p [line] (lineEnd p :: (steps d 0 n ++
        [textEnd ⟨n, 1 + Source.byteLength line⟩]))
  | text {d deeper n : Nat} {p : Position} {line : List Char} {more : List (List Char)}
      {lexemes ts : List Token} : Source.leadingSpaces line = indentWidth * deeper →
      ScansLine ⟨n, 1⟩ line lexemes → lexemes ≠ [] →
      Rows deeper (n + 1) ⟨n, 1 + Source.byteLength line⟩ more ts →
      Rows d n p (line :: more) (lineEnd p :: (steps d deeper n ++ lexemes ++ ts))

/-! ### Steps -/

/-- The steps in front of a line are all the same. -/
theorem steps_eq_replicate (d deeper n : Nat) : ∃ k m, k.isStep = true ∧
    steps d deeper n = List.replicate m (layoutStep k n) := by
  rcases Nat.le_total d deeper with h | h
  · exact ⟨.indent, deeper - d, rfl, by simp [steps, Nat.sub_eq_zero_of_le h]⟩
  · exact ⟨.dedent, d - deeper, rfl, by simp [steps, Nat.sub_eq_zero_of_le h]⟩

theorem isStep_of_mem_steps {d deeper n : Nat} {t : Token} (h : t ∈ steps d deeper n) :
    t.kind.isStep = true := by
  obtain ⟨k, m, hk, hsteps⟩ := steps_eq_replicate d deeper n
  rw [hsteps] at h
  rwa [List.eq_of_mem_replicate h]

theorem isLexeme_of_mem_steps {d deeper n : Nat} {t : Token} (h : t ∈ steps d deeper n) :
    t.kind.isLexeme = false := by
  by_contra hlexeme
  have hstep := isStep_of_mem_steps h
  rw [isStep_of_isLexeme (eq_true_of_ne_false hlexeme)] at hstep
  cases hstep

theorem kind_ne_newline_of_mem_steps {d deeper n : Nat} {t : Token}
    (h : t ∈ steps d deeper n) : t.kind ≠ .newline := by
  intro hk
  have hstep := isStep_of_mem_steps h
  rw [hk] at hstep
  cases hstep

/-! ### Lines without lexemes -/

theorem leadingSpaces_eq_length_iff {line : List Char} :
    Source.leadingSpaces line = line.length ↔ Blank line := by
  induction line with
  | nil => simp [Source.leadingSpaces, Blank]
  | cons c line ih =>
      by_cases hc : c = ' '
      · subst hc
        simpa [Source.leadingSpaces, Blank] using ih
      · simp [Source.leadingSpaces, Blank, hc]

theorem scansLine_blank {p : Position} {line : List Char} (h : Blank line) :
    ScansLine p line [] := by
  induction line generalizing p with
  | nil => exact .nil
  | cons c line ih =>
      obtain rfl := h c (by simp)
      exact .space (ih fun d hd => h d (by simp [hd]))

theorem ScansLine.blank_of_nil {p : Position} {line : List Char} (h : ScansLine p line []) :
    Blank line := by
  generalize hts : ([] : List Token) = ts at h
  induction h with
  | nil => simp [Blank]
  | space _ ih =>
      have := ih hts
      simpa [Blank] using this
  | lexeme _ _ _ _ => cases hts

/-! ### Line ends that follow each other -/

theorem dropEmptyLines_cons {t : Token} (h : t.kind ≠ .newline) (ts : List Token) :
    dropEmptyLines (t :: ts) = t :: dropEmptyLines ts := by
  cases ts with
  | nil => rfl
  | cons u ts => simp [dropEmptyLines, h]

theorem dropEmptyLines_append {us : List Token} (h : ∀ t ∈ us, t.kind ≠ .newline)
    (ts : List Token) : dropEmptyLines (us ++ ts) = us ++ dropEmptyLines ts := by
  induction us with
  | nil => rfl
  | cons u us ih =>
      rw [List.cons_append, dropEmptyLines_cons (h u (by simp)),
        ih fun t ht => h t (by simp [ht]), List.cons_append]

/-- The end of a line is kept in front of anything else. -/
theorem dropEmptyLines_lineEnd {p : Position} {us : List Token} (hne : us ≠ [])
    (h : ∀ t ∈ us, t.kind ≠ .newline) (ts : List Token) :
    dropEmptyLines (lineEnd p :: (us ++ ts)) = lineEnd p :: (us ++ dropEmptyLines ts) := by
  cases us with
  | nil => exact absurd rfl hne
  | cons u us =>
      rw [← dropEmptyLines_append h]
      simp [dropEmptyLines, h u (by simp)]

theorem dropEmptyLines_lineEnds (p q : Position) (ts : List Token) :
    dropEmptyLines (lineEnd p :: lineEnd q :: ts) = dropEmptyLines (lineEnd q :: ts) := by
  simp [dropEmptyLines, lineEnd]

theorem kind_ne_newline_of_isLexeme {t : Token} (h : t.kind.isLexeme = true) :
    t.kind ≠ .newline := by
  intro hk
  rw [hk] at h
  cases h

/-! ### One line at a time -/

theorem layout_text {d n : Nat} {line : List Char} {isLast : Bool} {r : List Token × Nat}
    (h : ¬ Blank line) : layout d n line isLast = .ok r ↔
      ∃ deeper, Source.leadingSpaces line = indentWidth * deeper ∧
        (steps d deeper n, deeper) = r := by
  have hlength : ¬ Source.leadingSpaces line = line.length :=
    fun e => h (leadingSpaces_eq_length_iff.mp e)
  simp only [layout, if_neg hlength]
  by_cases hmod : Source.leadingSpaces line % indentWidth = 0
  · rw [if_neg (by simp [hmod])]
    constructor
    · intro hr
      cases hr
      exact ⟨_, (Nat.mul_div_cancel' (Nat.dvd_of_mod_eq_zero hmod)).symm, rfl⟩
    · rintro ⟨deeper, hspaces, rfl⟩
      have hdiv : Source.leadingSpaces line / indentWidth = deeper := by
        rw [hspaces]
        exact Nat.mul_div_cancel_left deeper (by decide)
      rw [hdiv]
      rfl
  · rw [if_pos hmod]
    constructor
    · intro hr
      cases hr
    · rintro ⟨deeper, hspaces, -⟩
      rw [hspaces] at hmod
      exact absurd (Nat.mul_mod_right indentWidth deeper) hmod

theorem layout_last {d n : Nat} {line : List Char} (h : Blank line) :
    layout d n line true = .ok (steps d 0 n, 0) := by
  simp [layout, steps, leadingSpaces_eq_length_iff.mpr h]

theorem layout_blank {d n : Nat} {line : List Char} (h : Blank line) :
    layout d n line false = .ok ([], d) := by
  simp [layout, leadingSpaces_eq_length_iff.mpr h]

theorem scanLines_cons {d n : Nat} {p : Position} {line : List Char} {more : List (List Char)}
    {ts : List Token} : scanLines d n p (line :: more) = .ok ts ↔
      ∃ front deeper lexemes us, layout d n line more.isEmpty = .ok (front, deeper) ∧
        ScansLine ⟨n, 1⟩ line lexemes ∧
        scanLines deeper (n + 1) ⟨n, 1 + Source.byteLength line⟩ more = .ok us ∧
        lineEnd p :: (front ++ lexemes ++ us) = ts := by
  rw [scanLines]
  constructor
  · intro h
    obtain ⟨⟨front, deeper⟩, hlayout, h⟩ := Result.bind_ok.mp h
    obtain ⟨lexemes, hlexemes, h⟩ := Result.bind_ok.mp h
    obtain ⟨us, hus, h⟩ := Result.bind_ok.mp h
    exact ⟨front, deeper, lexemes, us, hlayout, scanLine_ok.mp hlexemes, hus, Result.pure_ok.mp h⟩
  · rintro ⟨front, deeper, lexemes, us, hlayout, hlexemes, hus, rfl⟩
    apply Result.bind_ok.mpr ⟨(front, deeper), hlayout, ?_⟩
    apply Result.bind_ok.mpr ⟨lexemes, scanLine_ok.mpr hlexemes, ?_⟩
    exact Result.bind_ok.mpr ⟨us, hus, rfl⟩

theorem ScansLine.eq_nil_of_blank {p : Position} {line : List Char} {ts : List Token}
    (h : ScansLine p line ts) (hblank : Blank line) : ts = [] := by
  have hnil := scanLine_ok.mpr (scansLine_blank (p := p) hblank)
  rw [scanLine_ok.mpr h] at hnil
  exact Except.ok.inj hnil

/-! ### Rows -/

theorem dropEmptyLines_row {d deeper n : Nat} {p : Position} {line : List Char}
    {lexemes : List Token} (h : ScansLine ⟨n, 1⟩ line lexemes) (hne : lexemes ≠ [])
    (us : List Token) :
    dropEmptyLines (lineEnd p :: (steps d deeper n ++ lexemes ++ us)) =
      lineEnd p :: (steps d deeper n ++ lexemes ++ dropEmptyLines us) := by
  apply dropEmptyLines_lineEnd
  · simp [hne]
  · intro t ht
    rcases List.mem_append.mp ht with ht | ht
    · exact kind_ne_newline_of_mem_steps ht
    · exact kind_ne_newline_of_isLexeme (h.isLexeme t ht)

theorem dropEmptyLines_lastRow (d n : Nat) (p q : Position) :
    dropEmptyLines (lineEnd p :: (steps d 0 n ++ [textEnd q])) =
      lineEnd p :: (steps d 0 n ++ [textEnd q]) := by
  have hkinds : ∀ t ∈ steps d 0 n ++ [textEnd q], t.kind ≠ .newline := by
    intro t ht
    rcases List.mem_append.mp ht with ht | ht
    · exact kind_ne_newline_of_mem_steps ht
    · rw [List.mem_singleton.mp ht]
      simp [textEnd]
  have hrow := @dropEmptyLines_lineEnd p _ (by simp) hkinds []
  simpa only [List.append_nil, dropEmptyLines] using hrow

theorem rows_of_scanLines {d n : Nat} {p : Position} {lines : List (List Char)} {ts : List Token}
    (h : scanLines d n p lines = .ok ts) : Rows d n p lines (dropEmptyLines ts) := by
  induction lines generalizing d n p ts with
  | nil =>
      cases h
      exact .done
  | cons line more ih =>
      obtain ⟨front, deeper, lexemes, us, hlayout, hlexemes, hus, rfl⟩ := scanLines_cons.mp h
      have hrows := ih hus
      by_cases hblank : Blank line
      · obtain rfl := hlexemes.eq_nil_of_blank hblank
        cases more with
        | nil =>
            rw [List.isEmpty_nil, layout_last hblank] at hlayout
            cases hlayout
            cases hus
            rw [List.append_nil, dropEmptyLines_lastRow]
            exact .last hblank
        | cons next more =>
            -- The rest begins with the end of this line, which takes the place of the last one.
            rw [List.isEmpty_cons, layout_blank hblank] at hlayout
            cases hlayout
            obtain ⟨_, _, _, _, _, _, _, hhead⟩ := scanLines_cons.mp hus
            rw [← hhead] at hrows ⊢
            apply Rows.blank hblank (List.cons_ne_nil next more)
            rwa [List.nil_append, List.nil_append, dropEmptyLines_lineEnds]
      · obtain ⟨deeper, hspaces, heq⟩ := (layout_text hblank).mp hlayout
        cases heq
        have hne : lexemes ≠ [] := by
          rintro rfl
          exact hblank hlexemes.blank_of_nil
        rw [dropEmptyLines_row hlexemes hne]
        exact .text hspaces hlexemes hne hrows

theorem scanLines_of_rows {d n : Nat} {p : Position} {lines : List (List Char)} {ts : List Token}
    (h : Rows d n p lines ts) : ∃ us, scanLines d n p lines = .ok us ∧ dropEmptyLines us = ts := by
  induction h with
  | done => exact ⟨_, rfl, rfl⟩
  | @blank d n p line more ts hblank hmore _ ih =>
      obtain ⟨us, hus, rfl⟩ := ih
      obtain ⟨next, more, rfl⟩ := List.exists_cons_of_ne_nil hmore
      refine ⟨lineEnd p :: us, scanLines_cons.mpr ⟨[], d, [], us, layout_blank hblank,
        scansLine_blank hblank, hus, rfl⟩, ?_⟩
      -- What comes next begins with a line end, for the sake of which this one is dropped.
      obtain ⟨_, _, _, _, _, _, _, rfl⟩ := scanLines_cons.mp hus
      exact dropEmptyLines_lineEnds _ _ _
  | @last d n p line hblank =>
      refine ⟨_, scanLines_cons.mpr ⟨_, 0, [], _, layout_last hblank, scansLine_blank hblank, rfl,
        rfl⟩, ?_⟩
      rw [List.append_nil, dropEmptyLines_lastRow]
  | @text d deeper n p line more lexemes ts hspaces hlexemes hne _ ih =>
      obtain ⟨us, hus, rfl⟩ := ih
      have hblank : ¬ Blank line := fun hblank => hne (hlexemes.eq_nil_of_blank hblank)
      refine ⟨_, scanLines_cons.mpr ⟨_, deeper, lexemes, us,
        (layout_text hblank).mpr ⟨deeper, hspaces, rfl⟩, hlexemes, hus, rfl⟩, ?_⟩
      exact dropEmptyLines_row hlexemes hne us

/-- The position behind the last of some lines. -/
def linesEnd : Nat → Position → List (List Char) → Position
  | _, p, [] => p
  | n, _, line :: more => linesEnd (n + 1) ⟨n, 1 + Source.byteLength line⟩ more

/-- The end of the text stands behind the last line. -/
theorem Rows.exists_textEnd {d n : Nat} {p : Position} {lines : List (List Char)}
    {ts : List Token} (h : Rows d n p lines ts) :
    ∃ us, ts = us ++ [textEnd (linesEnd n p lines)] := by
  induction h with
  | done => exact ⟨[], rfl⟩
  | blank _ _ _ ih => exact ih
  | @last d n p line _ => exact ⟨lineEnd p :: steps d 0 n, rfl⟩
  | @text d deeper n p line more lexemes ts _ _ _ _ ih =>
      obtain ⟨us, rfl⟩ := ih
      exact ⟨lineEnd p :: (steps d deeper n ++ lexemes ++ us), by simp [linesEnd]⟩

/-- The tokens of a text are the lexemes of its first line and the rows of the
lines behind it. -/
theorem scan_ok {source : String} {tokens : List Token} : scan source = .ok tokens ↔
    ∃ first more lexemes ts, Source.lines source.toList = first :: more ∧
      ScansLine Position.start first lexemes ∧
      Rows 0 2 ⟨1, 1 + Source.byteLength first⟩ more ts ∧ tokens = lexemes ++ ts := by
  obtain ⟨first, more, hlines⟩ :=
    List.exists_cons_of_ne_nil (Text.split_ne_nil '\n' source.toList)
  change Source.lines source.toList = first :: more at hlines
  simp only [scan, hlines]
  constructor
  · intro h
    obtain ⟨lexemes, hlexemes, h⟩ := Result.bind_ok.mp h
    obtain ⟨us, hus, h⟩ := Result.bind_ok.mp h
    have hline := scanLine_ok.mp hlexemes
    refine ⟨first, more, lexemes, _, rfl, hline, rows_of_scanLines hus, ?_⟩
    rw [← Result.pure_ok.mp h, dropEmptyLines_append]
    exact fun t ht => kind_ne_newline_of_isLexeme (hline.isLexeme t ht)
  · rintro ⟨_, _, lexemes, _, ⟨⟩, hline, hrows, rfl⟩
    obtain ⟨us, hus, rfl⟩ := scanLines_of_rows hrows
    apply Result.bind_ok.mpr ⟨lexemes, scanLine_ok.mpr hline, ?_⟩
    apply Result.bind_ok.mpr ⟨us, hus, ?_⟩
    rw [dropEmptyLines_append]
    · rfl
    · exact fun t ht => kind_ne_newline_of_isLexeme (hline.isLexeme t ht)

end Octet.Token
