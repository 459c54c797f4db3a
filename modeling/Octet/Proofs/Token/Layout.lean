import Octet.Proofs.Token.Neighbours

/-!
The layout of a text in its tokens. The steps of indentation in front of a
token, those in less those out, add up to the depth of the line that the token
stands on, and line ends stand between lines and nowhere else.

Both are read off the rows of the text. The depth is carried along the tokens
from left to right; what may follow what is a relation between neighbours.
-/

namespace Octet.Token

/-- How much deeper the text is behind some tokens than in front of them. -/
def level (ts : List Token) : Int :=
  (ts.countP (·.kind = .indent) : Int) - ts.countP (·.kind = .dedent)

/-- How deep a line is by its spaces. -/
def depthOf (line : List Char) : Nat :=
  if Source.leadingSpaces line = line.length then 0 else Source.leadingSpaces line / indentWidth

theorem depthOf_blank {line : List Char} (h : Blank line) : depthOf line = 0 :=
  if_pos (leadingSpaces_eq_length_iff.mpr h)

theorem depthOf_text {line : List Char} {d : Nat} (h : ¬ Blank line)
    (hspaces : Source.leadingSpaces line = indentWidth * d) : depthOf line = d := by
  rw [depthOf, if_neg fun e => h (leadingSpaces_eq_length_iff.mp e), hspaces]
  exact Nat.mul_div_cancel_left d (by decide)

/-! ### Levels -/

@[simp] theorem level_nil : level [] = 0 := rfl

theorem level_append (us ts : List Token) : level (us ++ ts) = level us + level ts := by
  simp only [level, List.countP_append]
  omega

theorem level_singleton {t : Token} (h : t.kind.isStep = false) : level [t] = 0 := by
  simp only [Kind.isStep, Bool.or_eq_false_iff, decide_eq_false_iff_not] at h
  simp [level, h.1, h.2]

theorem level_eq_zero {ts : List Token} (h : ∀ t ∈ ts, t.kind.isStep = false) : level ts = 0 := by
  induction ts with
  | nil => rfl
  | cons t ts ih =>
      change level ([t] ++ ts) = 0
      rw [level_append, level_singleton (h t (by simp)), ih fun u hu => h u (by simp [hu])]
      rfl

theorem level_indents (m n : Nat) :
    level (List.replicate m (layoutStep .indent n)) = m := by
  simp [level, List.countP_replicate, layoutStep]

theorem level_dedents (m n : Nat) :
    level (List.replicate m (layoutStep .dedent n)) = -m := by
  simp [level, List.countP_replicate, layoutStep]

/-- The steps lead from the one depth to the other. -/
theorem add_level_steps (d deeper n : Nat) : (d : Int) + level (steps d deeper n) = deeper := by
  rw [steps, level_append, level_indents, level_dedents]
  omega

/-! ### Along the tokens -/

/-- What is said about each token and the level in front of it, if the first of
them has the given level in front. -/
def Along (P : Int → Token → Prop) : Int → List Token → Prop
  | _, [] => True
  | n, t :: ts => P n t ∧ Along P (n + level [t]) ts

variable {P : Int → Token → Prop}

theorem along_append {n : Int} {us ts : List Token} :
    Along P n (us ++ ts) ↔ Along P n us ∧ Along P (n + level us) ts := by
  induction us generalizing n with
  | nil => simp [Along]
  | cons u us ih =>
      change P n u ∧ Along P (n + level [u]) (us ++ ts) ↔
        (P n u ∧ Along P (n + level [u]) us) ∧ Along P (n + level ([u] ++ us)) ts
      rw [ih, level_append, Int.add_assoc, and_assoc]

theorem Along.here {n : Int} {before behind : List Token} {t : Token}
    (h : Along P n (before ++ t :: behind)) : P (n + level before) t :=
  (along_append.mp h).2.1

/-- Tokens that are no steps leave the level as it is. -/
theorem along_of_forall {n : Int} {ts : List Token} (hts : ∀ t ∈ ts, t.kind.isStep = false)
    (h : ∀ t ∈ ts, P n t) : Along P n ts := by
  induction ts with
  | nil => trivial
  | cons t ts ih =>
      constructor
      · exact h t (by simp)
      · rw [level_singleton (hts t (by simp)), Int.add_zero]
        exact ih (fun u hu => hts u (by simp [hu])) fun u hu => h u (by simp [hu])

theorem along_replicate {m : Nat} {n : Int} {t : Token}
    (h : ∀ i : Nat, i < m → P (n + i * level [t]) t) : Along P n (List.replicate m t) := by
  induction m generalizing n with
  | zero => trivial
  | succ m ih =>
      constructor
      · simpa using h 0 (by omega)
      · apply ih
        intro i hi
        have hstep := h (i + 1) (by omega)
        rwa [Int.natCast_succ, Int.add_mul, Int.one_mul, Int.add_comm (_ * _),
          ← Int.add_assoc] at hstep

/-- The level changes by one with every step, towards the depth to be reached. -/
theorem along_steps {d deeper n : Nat}
    (hindent : ∀ i : Int, d ≤ i → i < deeper → P i (layoutStep .indent n))
    (hdedent : ∀ i : Int, deeper < i → i ≤ d → P i (layoutStep .dedent n)) :
    Along P d (steps d deeper n) := by
  -- One of the two runs of steps is empty.
  rw [steps, along_append]
  constructor
  · apply along_replicate
    intro i hi
    rw [show level [layoutStep .indent n] = 1 from level_indents 1 n]
    apply hindent <;> omega
  · apply along_replicate
    intro i hi
    rw [show level [layoutStep .dedent n] = -1 from level_dedents 1 n, level_indents]
    apply hdedent <;> omega

/-! ### The levels of a text -/

/-- The level at the end of a text is that of its last line. -/
def AtEnd (lines : List (List Char)) (n : Int) : Prop :=
  ∃ last, lines.getLast? = some last ∧ (Blank last ∨ lines.length = 1 → n = 0) ∧
    (¬ Blank last → 1 < lines.length → Source.leadingSpaces last = indentWidth * n)

/-- The level in front of a token fits the lines of the text. -/
structure Fits (lines : List (List Char)) (n : Int) (t : Token) : Prop where
  nonneg : 0 ≤ n
  lexeme : t.kind.isLexeme = true → t.position.line = 1 ∧ n = 0 ∨ 1 < t.position.line ∧
    ∃ line, lines[t.position.line - 1]? = some line ∧ Source.leadingSpaces line = indentWidth * n
  textEnd : t.kind = .eof → AtEnd lines n
  step : t.kind.isStep = true → t.position.column = 1 ∧ 0 < t.position.line ∧
    ∃ line, lines[t.position.line - 1]? = some line ∧
      (t.kind = .indent → n < depthOf line) ∧ (t.kind = .dedent → depthOf line < n)

theorem fits_lineEnd {lines : List (List Char)} {d : Nat} {p : Position} :
    Fits lines d (lineEnd p) :=
  ⟨Int.natCast_nonneg d, nofun, nofun, nofun⟩

theorem fits_textEnd {lines : List (List Char)} {d : Nat} {p : Position} (h : AtEnd lines d) :
    Fits lines d (textEnd p) :=
  ⟨Int.natCast_nonneg d, nofun, fun _ => h, nofun⟩

theorem fits_lexeme {lines : List (List Char)} {d : Nat} {t : Token} (ht : t.kind.isLexeme = true)
    (h : t.position.line = 1 ∧ (d : Int) = 0 ∨ 1 < t.position.line ∧
      ∃ line, lines[t.position.line - 1]? = some line ∧
        Source.leadingSpaces line = indentWidth * (d : Int)) :
    Fits lines d t := by
  refine ⟨Int.natCast_nonneg d, fun _ => h, fun hk => ?_, fun hk => ?_⟩
  · rw [hk] at ht
    cases ht
  · rw [isStep_of_isLexeme ht] at hk
    cases hk

theorem along_steps_fits {lines : List (List Char)} {line : List Char} {d n : Nat}
    (hn : 0 < n) (h : lines[n - 1]? = some line) :
    Along (Fits lines) d (steps d (depthOf line) n) := by
  apply along_steps
  · intro i hd hi
    exact ⟨by omega, nofun, nofun, fun _ => ⟨rfl, hn, line, h, fun _ => hi, nofun⟩⟩
  · intro i hi hd
    exact ⟨by omega, nofun, nofun, fun _ => ⟨rfl, hn, line, h, nofun, fun _ => hi⟩⟩

/-- The end of a line and the steps to the next one, in front of what stands on
that one. -/
theorem along_row {lines : List (List Char)} {line : List Char} {d n : Nat} {p : Position}
    {us : List Token} (hn : 0 < n) (hline : lines[n - 1]? = some line)
    (h : Along (Fits lines) (depthOf line) us) :
    Along (Fits lines) d (lineEnd p :: (steps d (depthOf line) n ++ us)) := by
  refine ⟨fits_lineEnd, ?_⟩
  rw [level_singleton rfl, Int.add_zero]
  refine along_append.mpr ⟨along_steps_fits hn hline, ?_⟩
  rwa [add_level_steps]

/-- Lexemes stand at the level that the text goes on with. -/
theorem along_lexemes {lines : List (List Char)} {p : Position} {line : List Char} {d : Nat}
    {lexemes ts : List Token} (hlexemes : ScansLine p line lexemes)
    (h : p.line = 1 ∧ d = 0 ∨ 1 < p.line ∧ lines[p.line - 1]? = some line ∧
      Source.leadingSpaces line = indentWidth * d)
    (hts : Along (Fits lines) d ts) : Along (Fits lines) d (lexemes ++ ts) := by
  have hplain : ∀ t ∈ lexemes, t.kind.isStep = false :=
    fun t ht => isStep_of_isLexeme (hlexemes.isLexeme t ht)
  refine along_append.mpr ⟨along_of_forall hplain fun t ht => ?_, ?_⟩
  · apply fits_lexeme (hlexemes.isLexeme t ht)
    rw [hlexemes.position_line t ht]
    rcases h with ⟨hp, rfl⟩ | ⟨hp, hline, hspaces⟩
    · exact .inl ⟨hp, rfl⟩
    · exact .inr ⟨hp, line, hline, by rw [hspaces, Int.natCast_mul]⟩
  · rwa [level_eq_zero hplain, Int.add_zero]

theorem atEnd_text {front : List (List Char)} {line : List Char} {d : Nat} (hfront : front ≠ [])
    (hblank : ¬ Blank line) (hspaces : Source.leadingSpaces line = indentWidth * d) :
    AtEnd (front ++ [line]) d := by
  refine ⟨line, by simp, fun h => ?_, fun _ _ => by rw [hspaces, Int.natCast_mul]⟩
  rcases h with h | h
  · exact absurd h hblank
  · have hpos := List.length_pos_of_ne_nil hfront
    rw [List.length_append, List.length_singleton] at h
    omega

/-- The levels along the rows of the lines that come behind some others. The
depth that the rows begin with is that of the text if no line is left. -/
theorem Rows.along {d n : Nat} {p : Position} {more : List (List Char)} {ts : List Token}
    (h : Rows d n p more ts) {lines : List (List Char)} (front : List (List Char))
    (hlines : lines = front ++ more) (hfront : front ≠ []) (hn : n = front.length + 1)
    (hend : more = [] → AtEnd lines d) : Along (Fits lines) d ts := by
  -- The lines in front grow by one with every row, and the number of the next line with them.
  induction h generalizing front with
  | done => exact ⟨fits_textEnd (hend rfl), trivial⟩
  | @blank d n p line more ts _ hmore _ ih =>
      apply ih (front ++ [line])
      · simp [hlines]
      · simp
      · simp [hn]
      · exact fun e => absurd e hmore
  | @last d n p line hblank =>
      have hline : lines[n - 1]? = some line := by simp [hlines, hn]
      have hends : AtEnd lines (0 : Nat) :=
        ⟨line, by simp [hlines], fun _ => rfl, fun h => absurd hblank h⟩
      rw [← depthOf_blank hblank] at hends ⊢
      exact along_row (by omega) hline ⟨fits_textEnd hends, trivial⟩
  | @text d deeper n p line more lexemes ts hspaces hlexemes hne _ ih =>
      have hblank : ¬ Blank line := fun hblank => hne (hlexemes.eq_nil_of_blank hblank)
      have hline : lines[n - 1]? = some line := by simp [hlines, hn]
      have hpos : 1 < n := by
        have := List.length_pos_of_ne_nil hfront
        omega
      have hts : Along (Fits lines) deeper ts := by
        apply ih (front ++ [line])
        · simp [hlines]
        · simp
        · simp [hn]
        · rintro rfl
          rw [hlines]
          exact atEnd_text hfront hblank hspaces
      have hrow := along_lexemes hlexemes (.inr ⟨hpos, hline, hspaces⟩) hts
      rw [← depthOf_text hblank hspaces] at hrow ⊢
      rw [List.append_assoc]
      exact along_row (by omega) hline hrow

theorem along_of_scan {source : String} {tokens : List Token} (h : scan source = .ok tokens) :
    Along (Fits (Source.lines source.toList)) 0 tokens := by
  obtain ⟨first, more, lexemes, ts, hlines, hlexemes, hrows, rfl⟩ := scan_ok.mp h
  apply along_lexemes (d := 0) hlexemes (.inl ⟨rfl, rfl⟩)
  apply hrows.along [first] hlines (by simp) rfl
  rintro rfl
  exact ⟨first, by simp [hlines], fun _ => rfl, fun _ h => by simp [hlines] at h⟩

/-- The level in front of any token of a text fits its lines. -/
theorem fits_of_scan {source : String} {before behind : List Token} {t : Token}
    (h : scan source = .ok (before ++ t :: behind)) :
    Fits (Source.lines source.toList) (level before) t := by
  simpa using (along_of_scan h).here

theorem level_nonneg_of_scan {source : String} {before behind : List Token}
    (h : scan source = .ok (before ++ behind)) : 0 ≤ level before := by
  cases behind with
  | cons t behind => exact (fits_of_scan h).nonneg
  | nil =>
      -- The last token is the end of the text, which is no step.
      rw [List.append_nil] at h
      obtain ⟨front, q, rfl⟩ := exists_textEnd_of_scan h
      rw [level_append, level_singleton rfl, Int.add_zero]
      exact (fits_of_scan h).nonneg

/-! ### The layout of a text -/

/-- The layout of the tokens is the layout of the text. -/
structure MirrorsLines (source : String) (tokens : List Token) : Prop where
  /-- A lexeme stands as deep as its line begins, and at no depth on the first
  line. -/
  lexeme : ∀ before t behind, tokens = before ++ t :: behind → t.kind.isLexeme = true →
    if t.position.line = 1 then level before = 0
    else ∃ line, Source.lineAt? source t.position.line = some line ∧
      Source.leadingSpaces line.toList = indentWidth * level before
  nonneg : ∀ before behind, tokens = before ++ behind → 0 ≤ level before
  /-- The text ends outside all blocks if its last line holds only spaces, and
  else as deep as its last line begins. -/
  textEnd : ∀ before t behind, tokens = before ++ t :: behind → t.kind = .eof →
    ∃ last, (Source.lines source.toList).getLast? = some last ∧
      (Blank last ∨ (Source.lines source.toList).length = 1 → level before = 0) ∧
      (¬ Blank last → 1 < (Source.lines source.toList).length →
        Source.leadingSpaces last = indentWidth * level before)
  /-- A step stands at the beginning of a line and leads towards its depth. -/
  step : ∀ before t behind, tokens = before ++ t :: behind → t.kind.isStep = true →
    t.position.column = 1 ∧ ∃ line, Source.lineAt? source t.position.line = some line ∧
      (t.kind = .indent → level before < depthOf line.toList) ∧
      (t.kind = .dedent → depthOf line.toList < level before)
  /-- What comes behind the steps stands on the same line. -/
  behindStep : ∀ before t behind, tokens = before ++ t :: behind → t.kind.isStep = true →
    ∃ ss u rest, behind = ss ++ u :: rest ∧ (∀ s ∈ ss, s = t) ∧
      (u.kind.isLexeme = true ∨ u.kind = .eof) ∧ u.position.line = t.position.line
  /-- One line end stands between two lexemes on different lines, right above
  the second of them, and none between two on the same line. -/
  between : ∀ before t mid u behind, tokens = before ++ t :: (mid ++ u :: behind) →
    t.kind.isLexeme = true → u.kind.isLexeme = true → (∀ s ∈ mid, s.kind.isLexeme = false) →
    if t.position.line = u.position.line then ∀ s ∈ mid, s.kind ≠ .newline
    else ∃ e, mid.filter (·.kind = .newline) = [e] ∧ e.position.line + 1 = u.position.line
  /-- Only lexemes have a line end directly behind them. -/
  lineEnd : ∀ before t u behind, tokens = before ++ t :: u :: behind → u.kind = .newline →
    t.kind.isLexeme = true

theorem lineAt?_eq_some {source : String} {number : Nat} {line : List Char} (hpos : 0 < number)
    (h : (Source.lines source.toList)[number - 1]? = some line) :
    Source.lineAt? source number = some (String.ofList line) := by
  rw [Source.lineAt?, if_neg (by omega), h]
  rfl

/-- Steps add no line end to the one in front of them. -/
theorem filter_newline_cons {e : Token} {ss : List Token} (he : e.kind = .newline)
    (hss : ∀ s ∈ ss, s.kind.isStep = true) : (e :: ss).filter (·.kind = .newline) = [e] := by
  have hnone : ss.filter (·.kind = .newline) = [] := by
    simp only [List.filter_eq_nil_iff, decide_eq_true_eq]
    intro s hs hk
    have hstep := hss s hs
    rw [hk] at hstep
    cases hstep
  rw [List.filter_cons_of_pos (by simp [he]), hnone]

/-- The tokens of a text have its layout. -/
theorem scan_mirrorsLines {source : String} {tokens : List Token}
    (h : scan source = .ok tokens) : MirrorsLines source tokens := by
  constructor
  case lexeme =>
    rintro before t behind rfl ht
    rcases (fits_of_scan h).lexeme ht with ⟨hline, hlevel⟩ | ⟨hpos, line, hline, hspaces⟩
    · rw [if_pos hline, hlevel]
    · rw [if_neg (by omega)]
      exact ⟨_, lineAt?_eq_some (by omega) hline, by simpa using hspaces⟩
  case nonneg =>
    rintro before behind rfl
    exact level_nonneg_of_scan h
  case textEnd =>
    rintro before t behind rfl ht
    exact (fits_of_scan h).textEnd ht
  case step =>
    rintro before t behind rfl ht
    obtain ⟨hcolumn, hpos, line, hline, hindent, hdedent⟩ := (fits_of_scan h).step ht
    exact ⟨hcolumn, _, lineAt?_eq_some hpos hline, by simpa using hindent, by simpa using hdedent⟩
  case behindStep =>
    rintro before t behind rfl ht
    have hlast := kind_getLast?_of_scan h
    rw [List.getLast?_append_cons] at hlast
    exact exists_behind_step ht (isChain_of_scan h).right_of_append hlast
  case between =>
    rintro before t mid u behind rfl ht hu hmid
    rcases lexeme_behind_lexeme ht (isChain_of_scan h).right_of_append hu hmid with
      ⟨rfl, hline⟩ | ⟨e, ss, rfl, he, hss, hle, hline⟩
    · rw [if_pos hline.symm]
      simp
    · rw [if_neg (by omega)]
      exact ⟨e, filter_newline_cons he hss, hline.symm⟩
  case lineEnd =>
    rintro before t u behind rfl hu
    have hfollows := List.isChain_cons_cons.mp (isChain_of_scan h).right_of_append
    exact hfollows.1.isLexeme_of_newline hu

/-- A line of two spaces between lines, two blocks that end at once, and a last
line without an end. -/
theorem scan_mirrorsLines_blocks : ∃ tokens,
    scan "if\n  \n    if\n        a\n    \nb" = .ok tokens ∧
      MirrorsLines "if\n  \n    if\n        a\n    \nb" tokens := by
  have hscan : scan "if\n  \n    if\n        a\n    \nb" = .ok
      [⟨.kwIf, "if", ⟨1, 1⟩⟩, lineEnd ⟨2, 3⟩, layoutStep .indent 3,
        ⟨.kwIf, "if", ⟨3, 5⟩⟩, lineEnd ⟨3, 7⟩, layoutStep .indent 4,
        ⟨.identifier, "a", ⟨4, 9⟩⟩, lineEnd ⟨5, 5⟩, layoutStep .dedent 6, layoutStep .dedent 6,
        ⟨.identifier, "b", ⟨6, 1⟩⟩, textEnd ⟨6, 2⟩] := by
    decide +kernel
  exact ⟨_, hscan, scan_mirrorsLines hscan⟩

end Octet.Token
