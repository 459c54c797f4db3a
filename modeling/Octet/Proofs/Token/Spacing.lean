import Mathlib.Data.List.Forall2
import Octet.Proofs.Token.Rows

/-!
Space that means nothing. Spaces at the end of a line and lines that hold
nothing but spaces move the rest of the text, and so all positions behind them,
and change nothing else: the tokens of the two texts have the same kinds and the
same values.

An inserted line is never the last one, since it stands in front of the line that
began there. That is what makes it mean nothing: the last line of a text ends its
blocks even if it is empty.
-/

namespace Octet

/-! ### Looser texts -/

namespace Source

/-- The second text is the first one with some spaces in front of a newline or at
its end, or with a line of spaces behind a newline. -/
inductive Loosens : List Char → List Char → Prop where
  | lineEnd (before after : List Char) (n : Nat) :
      Loosens (before ++ '\n' :: after) (before ++ List.replicate n ' ' ++ '\n' :: after)
  | textEnd (cs : List Char) (n : Nat) : Loosens cs (cs ++ List.replicate n ' ')
  | emptyLine (before after : List Char) (n : Nat) : Loosens (before ++ '\n' :: after)
      (before ++ '\n' :: (List.replicate n ' ' ++ '\n' :: after))

theorem lines_append (before after : List Char) :
    lines (before ++ '\n' :: after) = lines before ++ lines after := by
  induction before with
  | nil => exact Text.split_separator '\n' after
  | cons c before ih =>
      simp only [lines, List.cons_append, Text.split] at ih ⊢
      rw [ih]
      split
      · rfl
      · obtain ⟨piece, pieces, h⟩ := List.exists_cons_of_ne_nil (Text.split_ne_nil '\n' before)
        rw [h]
        rfl

/-- What stands behind a text without a newline stands behind its last line. -/
theorem lines_concat {cs : List Char} (hcs : '\n' ∉ cs) (before : List Char) :
    ∃ front last, lines before = front ++ [last] ∧
      lines (before ++ cs) = front ++ [last ++ cs] := by
  induction before with
  | nil =>
      exact ⟨[], [], rfl, Text.split_of_notMem hcs⟩
  | cons c before ih =>
      obtain ⟨front, last, h, h'⟩ := ih
      simp only [lines, List.cons_append, Text.split] at h h' ⊢
      rw [h, h']
      split
      · exact ⟨[] :: front, last, rfl, rfl⟩
      · cases front with
        | nil => exact ⟨[], c :: last, rfl, rfl⟩
        | cons line front => exact ⟨(c :: line) :: front, last, rfl, rfl⟩

end Source

namespace Token

/-! ### Lines that are alike -/

/-- The two lines differ in the spaces at their end only. -/
def SameLine (line line' : List Char) : Prop :=
  ∃ text n n', line = text ++ List.replicate n ' ' ∧ line' = text ++ List.replicate n' ' '

/-- Lines that differ in the spaces at their ends, and in lines of spaces that are
not the last. -/
inductive SameLines : List (List Char) → List (List Char) → Prop where
  | nil : SameLines [] []
  | cons {line line' : List Char} {more more' : List (List Char)} : SameLine line line' →
      SameLines more more' → SameLines (line :: more) (line' :: more')
  | insert {line : List Char} {more more' : List (List Char)} : Blank line → more' ≠ [] →
      SameLines more more' → SameLines more (line :: more')
  | remove {line : List Char} {more more' : List (List Char)} : Blank line → more ≠ [] →
      SameLines more more' → SameLines (line :: more) more'

theorem SameLine.symm {line line' : List Char} (h : SameLine line line') : SameLine line' line := by
  obtain ⟨text, n, n', hline, hline'⟩ := h
  exact ⟨text, n', n, hline', hline⟩

theorem SameLines.symm {lines lines' : List (List Char)} (h : SameLines lines lines') :
    SameLines lines' lines := by
  induction h with
  | nil => exact .nil
  | cons hline _ ih => exact .cons hline.symm ih
  | insert hblank hmore _ ih => exact .remove hblank hmore ih
  | remove hblank hmore _ ih => exact .insert hblank hmore ih

theorem SameLines.refl (lines : List (List Char)) : SameLines lines lines := by
  induction lines with
  | nil => exact .nil
  | cons line more ih => exact .cons ⟨line, 0, 0, by simp, by simp⟩ ih

theorem SameLines.append (front : List (List Char)) {lines lines' : List (List Char)}
    (h : SameLines lines lines') : SameLines (front ++ lines) (front ++ lines') := by
  induction front with
  | nil => exact h
  | cons line more ih => exact .cons ⟨line, 0, 0, by simp, by simp⟩ ih

theorem SameLines.eq_nil_iff {lines lines' : List (List Char)} (h : SameLines lines lines') :
    lines' = [] ↔ lines = [] := by
  induction h with
  | nil => rfl
  | cons _ _ _ => simp
  | insert _ hmore _ ih => exact iff_of_false (List.cons_ne_nil _ _) fun h => hmore (ih.mpr h)
  | remove _ hmore _ ih => exact iff_of_false (fun h => hmore (ih.mp h)) (List.cons_ne_nil _ _)

/-- Lines whose first lines are alike, and the others too. -/
def SameText (lines lines' : List (List Char)) : Prop :=
  ∃ first more first' more', lines = first :: more ∧ lines' = first' :: more' ∧
    SameLine first first' ∧ SameLines more more'

theorem SameText.symm {lines lines' : List (List Char)} (h : SameText lines lines') :
    SameText lines' lines := by
  obtain ⟨first, more, first', more', hlines, hlines', hfirst, hmore⟩ := h
  exact ⟨first', more', first, more, hlines', hlines, hfirst.symm, hmore.symm⟩

theorem SameLine.spaces (line : List Char) (n : Nat) :
    SameLine line (line ++ List.replicate n ' ') :=
  ⟨line, 0, n, by simp, rfl⟩

/-- Spaces at the end of one of the lines. -/
theorem sameText_line (front : List (List Char)) (line : List Char) (n : Nat)
    (behind : List (List Char)) : SameText (front ++ line :: behind)
      (front ++ (line ++ List.replicate n ' ') :: behind) := by
  cases front with
  | nil => exact ⟨line, behind, _, behind, rfl, rfl, .spaces line n, .refl behind⟩
  | cons first front =>
      refine ⟨first, _, first, _, rfl, rfl, ⟨first, 0, 0, by simp, by simp⟩, ?_⟩
      exact .append front (.cons (.spaces line n) (.refl behind))

/-- A looser text has the same lines but for spaces. -/
theorem sameText_of_loosens {cs cs' : List Char} (h : Source.Loosens cs cs') :
    SameText (Source.lines cs) (Source.lines cs') := by
  have hspaces (n : Nat) : '\n' ∉ List.replicate n ' ' := by simp
  cases h with
  | lineEnd before after n =>
      obtain ⟨front, last, h, h'⟩ := Source.lines_concat (hspaces n) before
      rw [Source.lines_append, Source.lines_append, h, h', List.append_assoc, List.append_assoc]
      exact sameText_line front last n (Source.lines after)
  | textEnd _ n =>
      obtain ⟨front, last, h, h'⟩ := Source.lines_concat (hspaces n) cs
      rw [h, h']
      exact sameText_line front last n []
  | emptyLine before after n =>
      have hblank : Source.lines (List.replicate n ' ' ++ '\n' :: after) =
          List.replicate n ' ' :: Source.lines after := Text.split_append (hspaces n) after
      rw [Source.lines_append, Source.lines_append, hblank]
      obtain ⟨first, more, h⟩ := List.exists_cons_of_ne_nil (Text.split_ne_nil '\n' before)
      rw [Source.lines, h]
      refine ⟨first, _, first, _, rfl, rfl, ⟨first, 0, 0, by simp, by simp⟩, .append more ?_⟩
      exact .insert (fun c hc => List.eq_of_mem_replicate hc) (Text.split_ne_nil '\n' after)
        (.refl _)

/-! ### Spaces at the end of a line -/

theorem goesOn_space (k : Kind) : k.goesOn ' ' = false := by
  cases k <;> decide

theorem Lexeme.ne_space {k : Kind} {w : List Char} (h : Lexeme k w) : ∀ c ∈ w, c ≠ ' ' := by
  have hword {w : List Char} (hw : isWord w = true) : ∀ c ∈ w, c ≠ ' ' := by
    cases w with
    | nil => simp
    | cons a tail =>
        simp only [isWord, Bool.and_eq_true, List.all_eq_true] at hw
        rintro c hc rfl
        rcases List.mem_cons.mp hc with rfl | hc
        · exact absurd hw.1 (by decide)
        · exact absurd (hw.2 ' ' hc) (by decide)
  cases h with
  | sign hk =>
      have hall : Kind.signs.all (fun k => k.spelling.toList.all (· != ' ')) = true := rfl
      intro c hc
      simpa using List.all_eq_true.mp (List.all_eq_true.mp hall k hk) c hc
  | number _ hdigits =>
      rintro c hc rfl
      exact absurd (hdigits ' ' hc) (by decide)
  | keyword hk => exact hword (isWord_of_reserved hk)
  | identifier hw _ => exact hword hw

/-- Spaces behind a line are skipped. -/
theorem ScansLine.append_spaces {p : Position} {line : List Char} {ts : List Token}
    (h : ScansLine p line ts) (n : Nat) : ScansLine p (line ++ List.replicate n ' ') ts := by
  induction h with
  | nil => exact scansLine_blank fun c hc => List.eq_of_mem_replicate hc
  | space _ ih => exact .space ih
  | @lexeme p k w rest ts hw hends _ ih =>
      rw [List.append_assoc]
      refine .lexeme hw (fun c hc => ?_) ih
      cases rest with
      | nil =>
          obtain rfl : c = ' ' := List.eq_of_mem_replicate (List.mem_of_mem_head? hc)
          exact goesOn_space k
      | cons d rest => exact hends c hc

/-- What is read from a line with spaces behind it is read from the line. -/
theorem ScansLine.of_append_spaces {p : Position} {line : List Char} {ts : List Token} {n : Nat}
    (h : ScansLine p (line ++ List.replicate n ' ') ts) : ScansLine p line ts := by
  generalize hrow : line ++ List.replicate n ' ' = row at h
  induction h generalizing line with
  | nil =>
      rw [(List.append_eq_nil_iff.mp hrow).1]
      exact .nil
  | @space p cs ts hcs ih =>
      cases line with
      | nil =>
          have hblank : Blank cs := fun c hc =>
            List.eq_of_mem_replicate (hrow.symm ▸ List.mem_cons_of_mem _ hc)
          rw [hcs.eq_nil_of_blank hblank]
          exact .nil
      | cons c line =>
          obtain ⟨rfl, hcs⟩ := List.cons.inj hrow
          exact .space (ih hcs)
  | @lexeme p k w rest ts hw hends _ ih =>
      -- A lexeme has no spaces, so it ends in front of those at the end.
      obtain ⟨line, rfl, hrest⟩ : ∃ us, line = w ++ us ∧ rest = us ++ List.replicate n ' ' := by
        rcases List.append_eq_append_iff.mp hrow with ⟨us, hline, hspaces⟩ | ⟨us, hline, hrest⟩
        · cases us with
          | nil => exact ⟨[], by simpa using hline.symm, by simpa using hspaces.symm⟩
          | cons c us =>
              have hc : c ∈ List.replicate n ' ' := by simp [hspaces]
              exact absurd (List.eq_of_mem_replicate hc) (hw.ne_space c (by simp [hline]))
        · exact ⟨us, hline, hrest⟩
      refine .lexeme hw (fun c hc => hends c ?_) (ih hrest.symm)
      rw [hrest, List.head?_append, Option.mem_def.mp hc]
      rfl

/-! ### Tokens that are alike -/

/-- The same token, maybe somewhere else. -/
structure Alike (t t' : Token) : Prop where
  kind : t'.kind = t.kind
  value : t'.value = t.value

/-- The tokens of a line are the same wherever it begins. -/
theorem ScansLine.move {p : Position} {line : List Char} {ts : List Token}
    (h : ScansLine p line ts) (p' : Position) :
    ∃ ts', ScansLine p' line ts' ∧ List.Forall₂ Alike ts ts' := by
  induction h generalizing p' with
  | nil => exact ⟨[], .nil, .nil⟩
  | space _ ih =>
      obtain ⟨ts', hts', halike⟩ := ih (p'.right 1)
      exact ⟨ts', .space hts', halike⟩
  | @lexeme p k w rest ts hw hends _ ih =>
      obtain ⟨ts', hts', halike⟩ := ih (p'.right w.length)
      exact ⟨_, .lexeme hw hends hts', .cons ⟨rfl, rfl⟩ halike⟩

theorem SameLine.scansLine {line line' : List Char} (hline : SameLine line line') {p : Position}
    {ts : List Token} (h : ScansLine p line ts) (p' : Position) :
    ∃ ts', ScansLine p' line' ts' ∧ List.Forall₂ Alike ts ts' := by
  obtain ⟨text, n, n', rfl, rfl⟩ := hline
  obtain ⟨ts', hts', halike⟩ := h.of_append_spaces.move p'
  exact ⟨ts', hts'.append_spaces n', halike⟩

theorem blank_append_spaces {text : List Char} {n : Nat} :
    Blank (text ++ List.replicate n ' ') ↔ Blank text := by
  simp only [Blank, List.mem_append, or_imp, forall_and]
  exact and_iff_left fun c hc => List.eq_of_mem_replicate hc

theorem SameLine.blank {line line' : List Char} (h : SameLine line line') :
    Blank line' ↔ Blank line := by
  obtain ⟨text, n, n', rfl, rfl⟩ := h
  rw [blank_append_spaces, blank_append_spaces]

theorem leadingSpaces_append_spaces {text : List Char} (h : ¬ Blank text) (n : Nat) :
    Source.leadingSpaces (text ++ List.replicate n ' ') = Source.leadingSpaces text := by
  rw [Source.leadingSpaces, List.takeWhile_append, if_neg]
  · rfl
  · exact fun hlength => h (leadingSpaces_eq_length_iff.mp hlength)

/-- Spaces at the end of a line that holds more do not make it deeper. -/
theorem SameLine.leadingSpaces {line line' : List Char} (h : SameLine line line')
    (hblank : ¬ Blank line) : Source.leadingSpaces line' = Source.leadingSpaces line := by
  obtain ⟨text, n, n', rfl, rfl⟩ := h
  rw [blank_append_spaces] at hblank
  rw [leadingSpaces_append_spaces hblank, leadingSpaces_append_spaces hblank]

theorem replicate_alike (k : Kind) (n n' m : Nat) : List.Forall₂ Alike
    (List.replicate m (layoutStep k n)) (List.replicate m (layoutStep k n')) := by
  induction m with
  | zero => exact .nil
  | succ m ih => exact .cons ⟨rfl, rfl⟩ ih

theorem steps_alike (d deeper n n' : Nat) :
    List.Forall₂ Alike (steps d deeper n) (steps d deeper n') :=
  List.rel_append (replicate_alike .indent n n' _) (replicate_alike .dedent n n' _)

/-- The rows of lines that are alike hold the same tokens. -/
theorem Rows.sameLines {lines lines' : List (List Char)} (hlines : SameLines lines lines')
    {d n : Nat} {p : Position} {ts : List Token} (h : Rows d n p lines ts) (n' : Nat)
    (p' : Position) : ∃ ts', Rows d n' p' lines' ts' ∧ List.Forall₂ Alike ts ts' := by
  induction hlines generalizing d n n' p p' ts with
  | nil =>
      cases h
      exact ⟨_, .done, .cons ⟨rfl, rfl⟩ .nil⟩
  | insert hblank hmore _ ih =>
      obtain ⟨ts', hrows, halike⟩ := ih h (n' + 1) _
      exact ⟨ts', .blank hblank hmore hrows, halike⟩
  | remove hblank hmore _ ih =>
      cases h with
      | blank _ _ h => exact ih h n' p'
      | last _ => exact absurd rfl hmore
      | text _ hscan hne _ => exact absurd (hscan.eq_nil_of_blank hblank) hne
  | cons hline hmore ih =>
      cases h with
      | blank hblank hne h =>
          obtain ⟨ts', hrows, halike⟩ := ih h (n' + 1) _
          exact ⟨ts', .blank (hline.blank.mpr hblank) (mt hmore.eq_nil_iff.mp hne) hrows, halike⟩
      | last hblank =>
          obtain rfl := hmore.eq_nil_iff.mpr rfl
          refine ⟨_, .last (hline.blank.mpr hblank), .cons ⟨rfl, rfl⟩ ?_⟩
          exact List.rel_append (steps_alike ..) (.cons ⟨rfl, rfl⟩ .nil)
      | text hspaces hscan hne h =>
          have hblank := fun hblank => hne (hscan.eq_nil_of_blank hblank)
          obtain ⟨lexemes', hscan', hlexemes⟩ := hline.scansLine hscan ⟨n', 1⟩
          obtain ⟨ts', hrows, halike⟩ := ih h (n' + 1) _
          have hne' : lexemes' ≠ [] := by
            rintro rfl
            exact hne (List.forall₂_nil_right_iff.mp hlexemes)
          refine ⟨_, .text ((hline.leadingSpaces hblank).trans hspaces) hscan' hne' hrows,
            .cons ⟨rfl, rfl⟩ ?_⟩
          exact List.rel_append (List.rel_append (steps_alike ..) hlexemes) halike

theorem scan_of_sameText {source source' : String} {tokens : List Token}
    (htext : SameText (Source.lines source.toList) (Source.lines source'.toList))
    (h : scan source = .ok tokens) :
    ∃ tokens', scan source' = .ok tokens' ∧ List.Forall₂ Alike tokens tokens' := by
  obtain ⟨first, more, lexemes, ts, hlines, hfirst, hrows, rfl⟩ := scan_ok.mp h
  obtain ⟨_, _, first', more', heq, hlines', hsame, hsames⟩ := htext
  obtain ⟨rfl, rfl⟩ := List.cons.inj (hlines.symm.trans heq)
  obtain ⟨lexemes', hfirst', hlexemes⟩ := hsame.scansLine hfirst Position.start
  obtain ⟨ts', hrows', halike⟩ := hrows.sameLines hsames 2 _
  exact ⟨_, scan_ok.mpr ⟨first', more', lexemes', ts', hlines', hfirst', hrows', rfl⟩,
    List.rel_append hlexemes halike⟩

end Token

end Octet
