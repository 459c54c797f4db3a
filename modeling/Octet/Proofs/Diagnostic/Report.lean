import Octet.Diagnostic.Report
import Octet.Proofs.Diagnostic.Location
import Octet.Proofs.Z80.Reading

/-!
What reports show. For each position of an error a report has a snippet of three
lines. The line of the text stands in the middle, behind its number and without
the spaces in front of it and the white space behind it, and the arrow below it
stands in the column of the character that the position names. A position among
the spaces in front is moved to the first character behind them.
-/

namespace Octet

/-! ### Lines and what surrounds them -/

theorem Text.exists_trimEnd_append (cs : List Char) :
    ∃ blanks, cs = trimEnd cs ++ blanks ∧ ∀ c ∈ blanks, isBlank c = true := by
  refine ⟨(cs.reverse.takeWhile isBlank).reverse, ?_, fun c hc => ?_⟩
  · rw [trimEnd, ← List.reverse_append, List.takeWhile_append_dropWhile, List.reverse_reverse]
  · exact List.mem_takeWhile_imp (List.mem_reverse.mp hc)

namespace Source

theorem notMem_newline_of_lineAt? {source line : String} {number : Nat}
    (h : lineAt? source number = some line) : '\n' ∉ line.toList := by
  unfold lineAt? at h
  split at h
  · cases h
  · obtain ⟨cs, hcs, rfl⟩ := Option.map_eq_some_iff.mp h
    rw [String.toList_ofList]
    exact Text.notMem_of_mem_split (List.mem_of_getElem? hcs)

theorem replicate_append_drop (line : List Char) :
    line = List.replicate (leadingSpaces line) ' ' ++ line.drop (leadingSpaces line) := by
  induction line with
  | nil => rfl
  | cons c line ih =>
      by_cases hc : c = ' '
      · subst hc
        simpa [leadingSpaces, List.replicate_succ] using ih
      · simp [leadingSpaces, hc]

theorem head?_drop_leadingSpaces (line : List Char) :
    (line.drop (leadingSpaces line)).head? ≠ some ' ' := by
  induction line with
  | nil => simp
  | cons c line ih =>
      by_cases hc : c = ' '
      · subst hc
        simpa [leadingSpaces] using ih
      · simp [leadingSpaces, hc]

end Source

namespace Report

/-- What a line is without the spaces in front of it and the white space behind
it. -/
structure Trimmed (line : List Char) (spaces : Nat) (core : List Char) : Prop where
  split : ∃ blanks, line = List.replicate spaces ' ' ++ (core ++ blanks) ∧
    ∀ c ∈ blanks, Text.isBlank c = true
  front : (line.drop spaces).head? ≠ some ' '
  back : ∀ c ∈ core.getLast?, Text.isBlank c = false

theorem trimmed (line : List Char) : Trimmed line (Source.leadingSpaces line)
    (Text.trimEnd (line.drop (Source.leadingSpaces line))) where
  split := by
    obtain ⟨blanks, hblanks, hall⟩ :=
      Text.exists_trimEnd_append (line.drop (Source.leadingSpaces line))
    exact ⟨blanks, hblanks ▸ Source.replicate_append_drop line, hall⟩
  front := Source.head?_drop_leadingSpaces line
  back _ h := Text.getLast?_trimEnd h

/-! ### Snippets -/

/-- The three lines that show a place of a text. -/
structure Snippet where
  above : String
  shown : String
  below : String

def Snippet.text (s : Snippet) : String :=
  s.above ++ "\n" ++ s.shown ++ "\n" ++ s.below ++ "\n"

def label (number : Nat) : String := toString number ++ " | "

/-- The column, counted from zero, in which a snippet has the character with the
index in the line. -/
def columnOf (number spaces index : Nat) : Nat := (label number).length + (index - spaces)

/-- The snippet shows a line of the text, with the arrow under the place in it. -/
structure Points (p : Position) (text : List Char) (spaces : Nat) (core : List Char)
    (s : Snippet) : Prop where
  trimmed : Trimmed text spaces core
  oneLine : ∀ line ∈ [s.above, s.shown, s.below], '\n' ∉ line.toList
  shown : s.shown = label p.line ++ String.ofList core
  /-- What is shown of the line stands in its columns. -/
  aligned : ∀ i, spaces ≤ i → i < spaces + core.length →
    s.shown.toList[columnOf p.line spaces i]? = text[i]?
  /-- The only arrow stands under the place, or behind the spaces if that is
  further on. -/
  arrow : ∃ front, s.below = String.ofList (front ++ ['^']) ∧ '^' ∉ front ∧
    front.length = columnOf p.line spaces (max (p.column - 1) spaces)

/-- The snippet shows the place of a text. -/
def Shows (source : String) (p : Position) (s : Snippet) : Prop :=
  ∃ line spaces core, Source.lineAt? source p.line = some line ∧
    Points p line.toList spaces core s

theorem toList_padLeft (fill : Char) (width : Nat) (text : String) :
    (padLeft fill width text).toList =
      List.replicate (width - text.length) fill ++ text.toList := by
  simp [padLeft]

theorem notMem_padLeft {fill c : Char} (hfill : c ≠ fill) (width : Nat) {text : String}
    (h : c ∉ text.toList) : c ∉ (padLeft fill width text).toList := by
  rw [toList_padLeft]
  exact List.not_mem_append (fun hmem => hfill (List.eq_of_mem_replicate hmem)) h

theorem newline_notMem_label (number : Nat) : '\n' ∉ (label number).toList := by
  rw [label, String.toList_append, Z80.toList_toString]
  exact List.not_mem_append (Z80.notMem_toDigits number rfl) (by simp)

theorem Trimmed.notMem {line core : List Char} {spaces : Nat} (h : Trimmed line spaces core)
    {c : Char} (hc : c ∉ line) : c ∉ core := by
  obtain ⟨blanks, rfl, -⟩ := h.split
  exact fun hmem => hc (by simp [hmem])

theorem Trimmed.getElem?_shown {text core : List Char} {spaces : Nat}
    (h : Trimmed text spaces core) (number : Nat) {i : Nat} (hi : spaces ≤ i)
    (hcore : i < spaces + core.length) :
    (label number ++ String.ofList core).toList[columnOf number spaces i]? = text[i]? := by
  obtain ⟨blanks, rfl, -⟩ := h.split
  rw [String.toList_append, String.toList_ofList, columnOf, ← String.length_toList,
    List.getElem?_append_right (Nat.le_add_right ..), Nat.add_sub_cancel_left,
    List.getElem?_append_right (by simpa using hi), List.length_replicate,
    List.getElem?_append_left (by omega)]

/-- The place of a line of the text has a snippet. -/
theorem exists_snippet {source line : String} {p : Position}
    (h : Source.lineAt? source p.line = some line) :
    ∃ s : Snippet, snippet source p = s.text ∧ Shows source p s := by
  let number := toString p.line
  let margin := padLeft ' ' (number.length + 2) "|"
  let spaces := Source.leadingSpaces line.toList
  let core := Text.trimEnd (line.toList.drop spaces)
  let arrow := padLeft '-' (max 1 (p.column - spaces)) "^"
  have htrimmed : Trimmed line.toList spaces core := trimmed line.toList
  refine ⟨⟨margin, label p.line ++ String.ofList core, margin ++ " " ++ arrow⟩, ?_, line, spaces,
    core, h, ⟨htrimmed, ?_, rfl, fun i => htrimmed.getElem?_shown p.line, ?_⟩⟩
  · simp only [snippet, h, Snippet.text, label, String.append_assoc]
    rfl
  · have hmargin : '\n' ∉ margin.toList := notMem_padLeft (by decide) _ (by simp)
    have harrow : '\n' ∉ arrow.toList := notMem_padLeft (by decide) _ (by simp)
    have hcore := htrimmed.notMem (Source.notMem_newline_of_lineAt? h)
    simpa [hmargin, harrow, hcore] using newline_notMem_label p.line
  · refine ⟨margin.toList ++ ' ' :: List.replicate (max 1 (p.column - spaces) - 1) '-', ?_, ?_, ?_⟩
    · have hlength : "^".length = 1 := rfl
      apply String.toList_inj.mp
      simp [arrow, toList_padLeft, hlength]
    · have hmargin : '^' ∉ margin.toList := notMem_padLeft (by decide) _ (by simp)
      simp [hmargin]
    · have hlength : "|".length = 1 := rfl
      have hmargin : margin.toList.length = number.length + 2 := by
        simp [margin, toList_padLeft, hlength]
      have hlabel : (label p.line).length = number.length + 3 := String.length_append ..
      rw [List.length_append, List.length_cons, List.length_replicate, hmargin, columnOf, hlabel]
      omega

theorem exists_snippets {source : String} {ps : List Position}
    (h : ∀ p ∈ ps, ∃ line, Source.lineAt? source p.line = some line) :
    ∃ snippets, List.Forall₂ (Shows source) ps snippets ∧
      ps.map (snippet source) = snippets.map Snippet.text := by
  induction ps with
  | nil => exact ⟨[], .nil, rfl⟩
  | cons p ps ih =>
      obtain ⟨line, hline⟩ := h p List.mem_cons_self
      obtain ⟨s, htext, hshows⟩ := exists_snippet hline
      obtain ⟨snippets, hall, htexts⟩ := ih fun q hq => h q (List.mem_cons_of_mem _ hq)
      exact ⟨s :: snippets, .cons hshows hall, by rw [List.map_cons, List.map_cons, htext, htexts]⟩

end Report

/-- Every error points into the source, and its report shows every place that it
points at. -/
theorem compile_error_located {source : String} {snapshot : Option String} {e : CompileError}
    (h : compile source snapshot = .error e) :
    e.positions ≠ [] ∧ (∀ p ∈ e.positions, ∃ line, Source.Located source p line) ∧
      ∀ file, ∃ snippets, List.Forall₂ (Report.Shows source) e.positions snippets ∧
        Report.render e source file = "Error: " ++ e.name ++ "\n-> " ++ file ++ "\n" ++
          String.join (snippets.map Report.Snippet.text) ++ e.message ++ "\n" := by
  obtain ⟨hne, hinside⟩ := inside_of_compile_error h
  have hlocated : ∀ p ∈ e.positions, ∃ line, Source.Located source p line :=
    fun p hp => Source.exists_located (hinside p hp)
  refine ⟨hne, hlocated, fun file => ?_⟩
  obtain ⟨snippets, hall, htexts⟩ :=
    Report.exists_snippets fun p hp => (hlocated p hp).imp fun _ hline => hline.found
  exact ⟨snippets, hall, by rw [Report.render, htexts]⟩

/-- A report of two errors, one directly behind the spaces in front of its line and
one further on. -/
theorem compile_error_located_indented : ∃ (source : String) (e : CompileError),
    compile source none = .error e ∧ e.positions = [⟨2, 5⟩, ⟨3, 12⟩] ∧
      (∀ p ∈ e.positions, ∃ line, Source.Located source p line) ∧
      ∃ snippets, List.Forall₂ (Report.Shows source) e.positions snippets ∧
        Report.render e source "demo" = "Error: " ++ e.name ++ "\n-> " ++ "demo" ++ "\n" ++
          String.join (snippets.map Report.Snippet.text) ++ e.message ++ "\n" := by
  let source := "def f() -> u8:
    let a: u8 = true
    return b
"
  have hpositions : (compile source none).mapError CompileError.positions =
      .error [⟨2, 5⟩, ⟨3, 12⟩] := by decide +kernel
  obtain ⟨e, he, hpositions⟩ := Result.mapError_error.mp hpositions
  obtain ⟨-, hlocated, hreport⟩ := compile_error_located he
  exact ⟨source, e, he, hpositions, hlocated, hreport "demo"⟩

end Octet
