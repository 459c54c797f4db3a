import Octet.Proofs.Token.Tiling
import Octet.Source.Place

/-!
Reading the tokens of a text from place to place. Patterns are tried in a fixed
order, and the first one that fits says how many characters are read and what
becomes of them. Only the pattern of a line end looks further: it measures the
indentation of the line that begins behind it.

Scanning goes through a text line by line instead, and takes the longest lexeme.
It comes to the same tokens, or to the same error.
-/

namespace Octet

/-- What is behind some characters is reached by going as far as they have
bytes. -/
theorem Place.advance_append (w rest : List Char) (p : Position) :
    Place.advance (Source.byteLength w) ⟨w ++ rest, p⟩ =
      ⟨rest, p.right (Source.byteLength w)⟩ := by
  have hdrop : dropBytes (Source.byteLength w) (w ++ rest) = rest := by
    induction w with
    | nil => simp [Source.byteLength, dropBytes]
    | cons c w ih =>
        obtain ⟨size, hsize⟩ := Nat.exists_eq_add_one.mpr c.utf8Size_pos
        have hlength : Source.byteLength (c :: w) = size + Source.byteLength w + 1 := by
          change c.utf8Size + Source.byteLength w = _
          omega
        rw [hlength, List.cons_append, dropBytes, hsize]
        simpa [Nat.add_sub_add_right] using ih
  rw [advance, hdrop]

namespace Token

/-- A scan on the way. -/
structure Scanner where
  place : Place
  depth : Nat
  tokens : List Token

namespace Scanner

def ofText (source : String) : Scanner := ⟨.ofText source, 0, []⟩

def skip (w : List Char) (s : Scanner) : Scanner :=
  { s with place := s.place.advance (Source.byteLength w) }

def push (kind : Kind) (w : List Char) (s : Scanner) : Scanner :=
  { s.skip w with tokens := s.tokens ++ [⟨kind, String.ofList w, s.place.position⟩] }

/-- Goes on to the depth that the spaces make. -/
def indent (spaces : Nat) (s : Scanner) : Except ScanError Scanner :=
  if spaces % indentWidth ≠ 0 then .error (.uneven s.place.position spaces)
  else
    let deeper := spaces / indentWidth
    let kind := if s.depth < deeper then Kind.indent else .dedent
    let step : Token := ⟨kind, String.ofList (List.replicate indentWidth ' '), s.place.position⟩
    let count := max s.depth deeper - min s.depth deeper
    .ok ⟨s.place.advance spaces, deeper, s.tokens ++ List.replicate count step⟩

/-- Measures the line that begins here. A line of spaces leaves the depth as it
is, but at the end of the text it counts as not indented. -/
def measure (s : Scanner) : Except ScanError Scanner :=
  let spaces := Source.leadingSpaces s.place.rest
  match s.place.rest.drop spaces with
  | '\n' :: _ => .ok s
  | [] => s.indent 0
  | _ => s.indent spaces

def endLine (s : Scanner) : Except ScanError Scanner :=
  measure ⟨⟨s.place.rest.tail, ⟨s.place.position.line + 1, 1⟩⟩, s.depth,
    s.tokens ++ [lineEnd s.place.position]⟩

end Scanner

/-- Finds characters in front of a text, and says what is done with them. -/
structure Pattern where
  find : List Char → Option (List Char)
  handle : List Char → Scanner → Except ScanError Scanner

namespace Pattern

/-- A character of one class, and as many of another as follow it. -/
def span (first next : Char → Bool) : List Char → Option (List Char)
  | [] => none
  | c :: cs => if first c then some (c :: cs.takeWhile next) else none

def sign (kind : Kind) : Pattern where
  find cs := if kind.spelling.toList.isPrefixOf cs then some kind.spelling.toList else none
  handle w s := .ok (s.push kind w)

/-- The patterns in the order in which they are tried. A sign of two characters
stands before the one that is its first. -/
def all : List Pattern :=
  [⟨span (· = ' ') (· = ' '), fun w s => .ok (s.skip w)⟩,
    ⟨fun cs => if ['\n'].isPrefixOf cs then some ['\n'] else none, fun _ s => s.endLine⟩,
    sign .arrow, sign .equal, sign .notEqual, sign .leftParen, sign .rightParen, sign .plus,
    sign .minus, sign .assign, sign .colon, sign .comma,
    ⟨span Char.isDigit Char.isDigit, fun w s => .ok (s.push .number w)⟩,
    ⟨span startsWord continuesWord, fun w s => .ok (s.push (Kind.ofWord (String.ofList w)) w)⟩]

end Pattern

namespace Scanner

def step (s : Scanner) : Except ScanError Scanner :=
  match Pattern.all.findSome? fun p => (p.find s.place.rest).map (p.handle · s) with
  | some result => result
  | none => .error (.unrecognized s.place.position (s.place.rest.headD '\x00'))

/-- Steps are taken up to the end of the text, or to the first error. -/
inductive Runs : Scanner → Except ScanError (List Token) → Prop where
  | done {s : Scanner} : s.place.atEnd = true →
      Runs s (.ok (s.tokens ++ [textEnd s.place.position]))
  | fail {s : Scanner} {e : ScanError} : s.place.atEnd = false → s.step = .error e →
      Runs s (.error e)
  | next {s s' : Scanner} {r : Except ScanError (List Token)} : s.place.atEnd = false →
      s.step = .ok s' → Runs s' r → Runs s r

theorem Runs.unique {s : Scanner} {r r' : Except ScanError (List Token)} (h : Runs s r)
    (h' : Runs s r') : r = r' := by
  induction h with
  | done hend =>
      cases h' with
      | done => rfl
      | fail hmore => simp [hend] at hmore
      | next hmore => simp [hend] at hmore
  | fail hmore hstep =>
      cases h' with
      | done hend => simp [hend] at hmore
      | fail _ hstep' => exact congrArg Except.error (Except.error.inj (hstep.symm.trans hstep'))
      | next _ hstep' => cases hstep.symm.trans hstep'
  | next hmore hstep _ ih =>
      cases h' with
      | done hend => simp [hend] at hmore
      | fail _ hstep' => cases hstep.symm.trans hstep'
      | next _ hstep' hrest =>
          cases Except.ok.inj (hstep.symm.trans hstep')
          exact ih hrest

/-! ### The first pattern that fits -/

theorem findSome?_lexeme {c : Char} (hspace : c ≠ ' ') (hnewline : c ≠ '\n') (cs : List Char)
    (s : Scanner) : (Pattern.all.findSome? fun p => (p.find (c :: cs)).map (p.handle · s)) =
      (lexeme? c cs).map fun l => .ok (s.push l.1 (c :: l.2)) := by
  unfold lexeme?
  split
  · rfl
  · rfl
  · rfl
  · rfl
  · rfl
  · rfl
  · next hnext =>
      cases cs with
      | nil => rfl
      | cons d cs =>
          have hd : '>' ≠ d := fun h => hnext cs (h ▸ rfl)
          simp [Pattern.all, Pattern.sign, Pattern.span, Kind.spelling, List.cons_prefix_cons,
            hd]
  · next hnext =>
      cases cs with
      | nil => rfl
      | cons d cs =>
          have hd : '=' ≠ d := fun h => hnext cs (h ▸ rfl)
          simp [Pattern.all, Pattern.sign, Pattern.span, Kind.spelling, List.cons_prefix_cons,
            hd]
  · rfl
  · rfl
  · next hleft hright hplus hminus hassign hcolon hcomma _ _ hbang =>
      have hnotEqual : ¬ ('!' = c ∧ ['='] <+: cs) := by
        rintro ⟨rfl, tail, rfl⟩
        exact hbang tail rfl rfl
      by_cases hdigit : c.isDigit = true
      all_goals by_cases hword : startsWord c = true
      all_goals simp [Pattern.all, Pattern.sign, Pattern.span, Kind.spelling, List.cons_prefix_cons,
        hspace, Ne.symm hnewline, Ne.symm hleft, Ne.symm hright, Ne.symm hplus, Ne.symm hminus,
        Ne.symm hassign, Ne.symm hcolon, Ne.symm hcomma, hnotEqual, hdigit, hword]

/-! ### Lines -/

variable {p : Position} {d : Nat} {ts : List Token} {r : Except ScanError (List Token)}

theorem skip_append (w rest : List Char) : skip w ⟨⟨w ++ rest, p⟩, d, ts⟩ =
    ⟨⟨rest, p.right (Source.byteLength w)⟩, d, ts⟩ := by
  rw [skip, Place.advance_append]

theorem push_append (k : Kind) (w rest : List Char) : push k w ⟨⟨w ++ rest, p⟩, d, ts⟩ =
    ⟨⟨rest, p.right (Source.byteLength w)⟩, d, ts ++ [⟨k, String.ofList w, p⟩]⟩ := by
  rw [push, skip_append]

theorem step_spaces (cs : List Char) : step ⟨⟨' ' :: cs, p⟩, d, ts⟩ =
    .ok ⟨⟨cs.dropWhile (· = ' '), p.right (1 + (cs.takeWhile (· = ' ')).length)⟩, d, ts⟩ := by
  let spaces := ' ' :: cs.takeWhile (· = ' ')
  have hplain : ∀ c ∈ spaces, IsPlain c := by
    intro c hc
    have hspace : c = ' ' := by
      rcases List.mem_cons.mp hc with rfl | hc
      · rfl
      · simpa using List.mem_takeWhile_imp hc
    rw [hspace]
    exact isPlain_space
  have hsplit : ' ' :: cs = spaces ++ cs.dropWhile (· = ' ') := by simp [spaces]
  calc step ⟨⟨' ' :: cs, p⟩, d, ts⟩
    _ = .ok (skip spaces ⟨⟨' ' :: cs, p⟩, d, ts⟩) := rfl
    _ = .ok (skip spaces ⟨⟨spaces ++ cs.dropWhile (· = ' '), p⟩, d, ts⟩) := by rw [← hsplit]
    _ = _ := by rw [skip_append, byteLength_plain hplain, List.length_cons, Nat.add_comm]

theorem runs_space {cs : List Char} (h : Runs ⟨⟨cs, p.right 1⟩, d, ts⟩ r) :
    Runs ⟨⟨' ' :: cs, p⟩, d, ts⟩ r := by
  cases cs with
  | nil => exact .next rfl (step_spaces []) h
  | cons c cs =>
      by_cases hc : c = ' '
      · subst hc
        have hsame : step ⟨⟨' ' :: ' ' :: cs, p⟩, d, ts⟩ =
            step ⟨⟨' ' :: cs, p.right 1⟩, d, ts⟩ := by
          rw [step_spaces, step_spaces, right_right]
          simp [Nat.add_comm]
        cases h with
        | done hend => cases hend
        | fail _ hstep => exact .fail rfl (hsame.trans hstep)
        | next _ hstep hrest => exact .next rfl (hsame.trans hstep) hrest
      · refine .next rfl (step_spaces _) ?_
        simpa [hc] using h

theorem step_lexeme {c : Char} {cs w : List Char} {k : Kind} (hspace : c ≠ ' ')
    (hnewline : c ≠ '\n') (h : lexeme? c (w ++ cs) = some (k, w)) :
    step ⟨⟨c :: (w ++ cs), p⟩, d, ts⟩ = .ok ⟨⟨cs, p.right (1 + w.length)⟩, d,
      ts ++ [⟨k, String.ofList (c :: w), p⟩]⟩ := by
  obtain ⟨rest, -, hlexeme, -⟩ := lexeme_of_lexeme? h
  have hlength : Source.byteLength (c :: w) = 1 + w.length := by
    rw [byteLength_plain hlexeme.isPlain, List.length_cons, Nat.add_comm]
  unfold step
  rw [findSome?_lexeme hspace hnewline, h]
  rw [← hlength]
  exact congrArg Except.ok (push_append k (c :: w) cs)

theorem step_unrecognized {c : Char} {cs : List Char} (hspace : c ≠ ' ') (hnewline : c ≠ '\n')
    (h : lexeme? c cs = none) :
    step ⟨⟨c :: cs, p⟩, d, ts⟩ = .error (.unrecognized p c) := by
  unfold step
  rw [findSome?_lexeme hspace hnewline, h]
  rfl

end Scanner

/-- What stands behind the end of a line belongs to no lexeme on it. -/
theorem lexeme?_append {c : Char} {cs behind : List Char}
    (hbehind : ∀ a ∈ behind.head?, a = '\n') : lexeme? c (cs ++ behind) = lexeme? c cs := by
  cases hfound : lexeme? c cs with
  | some found =>
      obtain ⟨k, w⟩ := found
      obtain ⟨rest, rfl, hlexeme, hends⟩ := lexeme_of_lexeme? hfound
      rw [List.append_assoc]
      exact lexeme?_of_lexeme hlexeme (hends.append hbehind)
  | none =>
      cases hmore : lexeme? c (cs ++ behind) with
      | none => rfl
      | some found =>
          obtain ⟨k, w⟩ := found
          obtain ⟨rest, heq, hlexeme, hends⟩ := lexeme_of_lexeme? hmore
          -- No lexeme goes over the end of the line, so this one is found on it too.
          have hinside : ∃ rest, cs = w ++ rest ∧ k.Ends rest := by
            rcases List.append_eq_append_iff.mp heq with
              ⟨overlap, rfl, hoverlap⟩ | ⟨rest', rfl, rfl⟩
            · cases overlap with
              | nil => exact ⟨[], by simp, fun a ha => by cases ha⟩
              | cons a overlap =>
                  have hnewline : a = '\n' := hbehind a (by rw [hoverlap]; rfl)
                  exact absurd hnewline (hlexeme.isPlain a (by simp)).2
            · refine ⟨rest', rfl, fun a ha => hends a ?_⟩
              rw [List.head?_append, Option.mem_def.mp ha]
              rfl
          obtain ⟨rest, rfl, hends⟩ := hinside
          rw [lexeme?_of_lexeme hlexeme hends] at hfound
          cases hfound

namespace Scanner

/-- A line is read up to its end, or to the first character in it that starts no
lexeme. -/
theorem runs_line {line behind : List Char} (hline : '\n' ∉ line)
    (hbehind : ∀ a ∈ behind.head?, a = '\n') {d : Nat}
    {next : List Token → Except ScanError (List Token)} {p : Position} {ts : List Token}
    (hnext : ∀ us, scanLine p line = .ok us →
      Runs ⟨⟨behind, p.right (Source.byteLength line)⟩, d, ts ++ us⟩ (next us)) :
    Runs ⟨⟨line ++ behind, p⟩, d, ts⟩ (scanLine p line >>= next) := by
  fun_induction scanLine p line generalizing ts next with
  | case1 p =>
      have hrest := hnext [] rfl
      rw [List.append_nil] at hrest
      exact hrest
  | case2 p cs ih =>
      refine runs_space (ih (fun h => hline (List.mem_cons_of_mem _ h)) fun us hus => ?_)
      rw [right_right]
      exact hnext us hus
  | case3 p c cs hspace hnone =>
      have hnewline : c ≠ '\n' := fun h => hline (h ▸ List.mem_cons_self)
      exact .fail rfl (step_unrecognized hspace hnewline ((lexeme?_append hbehind).trans hnone))
  | case4 p c cs hspace k w hsome ih =>
      have hnewline : c ≠ '\n' := fun h => hline (h ▸ List.mem_cons_self)
      obtain ⟨rest, rfl, hlexeme, -⟩ := lexeme_of_lexeme? hsome
      rw [← lexeme?_append hbehind, List.append_assoc] at hsome
      rw [List.drop_left] at ih
      have hlength : Source.byteLength (c :: (w ++ rest)) =
          1 + w.length + Source.byteLength rest := by
        rw [← List.cons_append, byteLength_append, byteLength_plain hlexeme.isPlain,
          List.length_cons, Nat.add_comm w.length]
      rw [List.cons_append, List.append_assoc, bind_assoc, List.drop_left]
      refine .next rfl (step_lexeme hspace hnewline hsome) (ih ?_ fun us hus => ?_)
      · exact fun h => hline (List.mem_cons_of_mem _ (List.mem_append_right _ h))
      · rw [right_right, ← hlength, List.append_assoc]
        refine hnext _ ?_
        rw [List.drop_left, hus]
        rfl

/-- Spaces in front of a line make no difference but in bytes. -/
theorem scanLine_drop {line : List Char} {p : Position} {n : Nat}
    (h : n ≤ Source.leadingSpaces line) :
    scanLine (p.right n) (line.drop n) = scanLine p line ∧
      Source.byteLength line = n + Source.byteLength (line.drop n) := by
  induction n generalizing line p with
  | zero => exact ⟨rfl, (Nat.zero_add _).symm⟩
  | succ n ih =>
      cases line with
      | nil => simp [Source.leadingSpaces] at h
      | cons c cs =>
          by_cases hc : c = ' '
          · subst hc
            have hle : n ≤ Source.leadingSpaces cs := by simpa [Source.leadingSpaces] using h
            obtain ⟨hscan, hlength⟩ := ih (p := p.right 1) hle
            constructor
            · rw [List.drop_succ_cons, Nat.add_comm, ← right_right, hscan, scanLine, if_pos rfl]
            · change 1 + Source.byteLength cs = _
              rw [hlength, List.drop_succ_cons, ← Nat.add_assoc, Nat.add_comm 1]
          · simp [Source.leadingSpaces, hc] at h

theorem leadingSpaces_append {line behind : List Char} (hbehind : ∀ a ∈ behind.head?, a = '\n') :
    Source.leadingSpaces (line ++ behind) = Source.leadingSpaces line := by
  have hnone : behind.takeWhile (· = ' ') = [] := by
    cases behind with
    | nil => rfl
    | cons a behind =>
        rw [hbehind a rfl]
        rfl
  rw [Source.leadingSpaces, List.takeWhile_append, hnone]
  split
  · next hall => rw [List.append_nil, Source.leadingSpaces, hall]
  · rfl

theorem leadingSpaces_le (line : List Char) : Source.leadingSpaces line ≤ line.length :=
  (List.takeWhile_prefix _).length_le

/-- Behind the spaces in front of a line that holds more stands a character of
its own. -/
theorem exists_text {line : List Char} (hline : '\n' ∉ line) (h : ¬ Blank line) :
    ∃ w c cs, line = w ++ c :: cs ∧ w.length = Source.leadingSpaces line ∧
      (∀ a ∈ w, a = ' ') ∧ c ≠ '\n' := by
  have hsplit := (List.takeWhile_append_dropWhile (p := (· = ' ')) (l := line)).symm
  cases hrest : line.dropWhile (· = ' ') with
  | nil =>
      refine absurd (leadingSpaces_eq_length_iff.mp ?_) h
      rw [hrest, List.append_nil] at hsplit
      exact (congrArg List.length hsplit).symm
  | cons c cs =>
      rw [hrest] at hsplit
      refine ⟨_, c, cs, hsplit, rfl, fun a ha => by simpa using List.mem_takeWhile_imp ha, ?_⟩
      rintro rfl
      exact hline (hsplit ▸ List.mem_append_right _ List.mem_cons_self)

theorem steps_eq (d deeper n : Nat) : List.replicate (max d deeper - min d deeper)
    (layoutStep (if d < deeper then .indent else .dedent) n) = steps d deeper n := by
  unfold steps
  split
  · next h => simp [Nat.max_eq_right (Nat.le_of_lt h), Nat.min_eq_left (Nat.le_of_lt h),
      Nat.sub_eq_zero_of_le (Nat.le_of_lt h)]
  · next h => simp [Nat.max_eq_left (Nat.le_of_not_lt h), Nat.min_eq_right (Nat.le_of_not_lt h),
      Nat.sub_eq_zero_of_le (Nat.le_of_not_lt h)]

theorem indent_eq {w rest : List Char} (hw : ∀ c ∈ w, IsPlain c) (n d : Nat) (ts : List Token) :
    indent w.length ⟨⟨w ++ rest, ⟨n, 1⟩⟩, d, ts⟩ =
      if w.length % indentWidth ≠ 0 then .error (.uneven ⟨n, 1⟩ w.length)
      else .ok ⟨⟨rest, ⟨n, 1 + w.length⟩⟩, w.length / indentWidth,
        ts ++ steps d (w.length / indentWidth) n⟩ := by
  have hadvance : Place.advance w.length ⟨w ++ rest, ⟨n, 1⟩⟩ = ⟨rest, ⟨n, 1 + w.length⟩⟩ := by
    rw [← byteLength_plain hw]
    exact Place.advance_append w rest ⟨n, 1⟩
  rw [← steps_eq, ← hadvance]
  rfl

/-- Measuring finds the same steps as the layout of the line, and reads some of
the spaces in front of it. -/
theorem measure_eq {line behind : List Char} (hline : '\n' ∉ line)
    (hbehind : ∀ a ∈ behind.head?, a = '\n') (n d : Nat) (ts : List Token) :
    ∃ k ≤ Source.leadingSpaces line, measure ⟨⟨line ++ behind, ⟨n, 1⟩⟩, d, ts⟩ =
      (layout d n line behind.isEmpty).map fun found =>
        ⟨⟨line.drop k ++ behind, ⟨n, 1 + k⟩⟩, found.2, ts ++ found.1⟩ := by
  have hdrop : (line ++ behind).drop (Source.leadingSpaces (line ++ behind)) =
      line.drop (Source.leadingSpaces line) ++ behind := by
    rw [leadingSpaces_append hbehind, List.drop_append_of_le_length (leadingSpaces_le line)]
  dsimp only [measure]
  rw [hdrop, leadingSpaces_append hbehind]
  by_cases hblank : Blank line
  · refine ⟨0, Nat.zero_le _, ?_⟩
    rw [leadingSpaces_eq_length_iff.mpr hblank, List.drop_length]
    cases behind with
    | nil =>
        rw [List.isEmpty_nil, layout_last hblank]
        exact indent_eq (w := []) (by simp) n d ts
    | cons a behind =>
        obtain rfl := hbehind a rfl
        rw [List.isEmpty_cons, layout_blank hblank]
        exact congrArg (fun us => Except.ok (Scanner.mk _ d us)) (List.append_nil ts).symm
  · obtain ⟨w, c, cs, rfl, hlength, hspaces, hc⟩ := exists_text hline hblank
    have hshort : ¬ w.length = (w ++ c :: cs).length := by simp
    have hplain : ∀ a ∈ w, IsPlain a := fun a ha => hspaces a ha ▸ isPlain_space
    refine ⟨w.length, Nat.le_of_eq hlength, ?_⟩
    rw [← hlength, List.drop_left, List.cons_append]
    split
    · next heq =>
        cases heq
        exact absurd rfl hc
    · next heq => cases heq
    · rw [List.append_assoc, List.cons_append, indent_eq hplain]
      simp only [layout, ← hlength, if_neg hshort]
      split <;> rfl

theorem map_row (p : Position) (ts front lexemes : List Token)
    (rest : Except ScanError (List Token)) :
    (rest >>= fun us => pure (lineEnd p :: (front ++ lexemes ++ us))).map (ts ++ ·) =
      rest.map (ts ++ [lineEnd p] ++ front ++ lexemes ++ ·) := by
  cases rest with
  | error e => rfl
  | ok us => exact congrArg Except.ok (by simp)

/-- What is left of a text behind one of its lines is read line by line. -/
theorem runs_lines {more : List (List Char)} (hmore : ∀ line ∈ more, '\n' ∉ line) (p : Position)
    (d : Nat) (ts : List Token) :
    Runs ⟨⟨more.flatMap ('\n' :: ·), p⟩, d, ts⟩
      ((scanLines d (p.line + 1) p more).map (ts ++ ·)) := by
  induction more generalizing p d ts with
  | nil => exact .done rfl
  | cons line more ih =>
      obtain ⟨hline, hmore⟩ := List.forall_mem_cons.mp hmore
      let n := p.line + 1
      let behind := more.flatMap ('\n' :: ·)
      have hbehind : ∀ a ∈ behind.head?, a = '\n' := fun a ha => head?_flatMap_newline ha
      have hlast : behind.isEmpty = more.isEmpty := by cases more <;> rfl
      obtain ⟨k, hk, hmeasure⟩ := measure_eq hline hbehind n d (ts ++ [lineEnd p])
      have hstep : step ⟨⟨'\n' :: (line ++ behind), p⟩, d, ts⟩ = _ := hmeasure
      rw [hlast] at hstep
      rw [scanLines]
      cases hlayout : layout d n line more.isEmpty with
      | error e =>
          rw [hlayout] at hstep
          exact .fail rfl hstep
      | ok found =>
          obtain ⟨front, deeper⟩ := found
          rw [hlayout] at hstep
          obtain ⟨hscan, hlength⟩ := scanLine_drop (p := ⟨n, 1⟩) hk
          have hline' : '\n' ∉ line.drop k := fun h => hline (List.mem_of_mem_drop h)
          let next (lexemes : List Token) :=
            (scanLines deeper (n + 1) ⟨n, 1 + Source.byteLength line⟩ more).map
              (ts ++ [lineEnd p] ++ front ++ lexemes ++ ·)
          have hruns : Runs ⟨⟨line.drop k ++ behind, Position.right k ⟨n, 1⟩⟩, deeper,
              ts ++ [lineEnd p] ++ front⟩
              (scanLine (Position.right k ⟨n, 1⟩) (line.drop k) >>= next) := by
            refine runs_line hline' hbehind fun lexemes _ => ?_
            rw [right_right, ← hlength]
            exact ih hmore ⟨n, 1 + Source.byteLength line⟩ deeper _
          rw [hscan] at hruns
          refine .next rfl hstep (Eq.mpr (congrArg (Runs _) ?_) hruns)
          cases scanLine ⟨n, 1⟩ line with
          | error e => rfl
          | ok lexemes => exact map_row p ts front lexemes _

end Scanner

/-- Scanning a text gives what the patterns give, without the ends of empty
lines. -/
theorem scan_eq_iff {source : String} {r : Except ScanError (List Token)} :
    scan source = r ↔ ∃ r', Scanner.Runs (.ofText source) r' ∧ r'.map dropEmptyLines = r := by
  obtain ⟨first, more, hlines⟩ :=
    List.exists_cons_of_ne_nil (Text.split_ne_nil '\n' source.toList)
  change Source.lines source.toList = first :: more at hlines
  have hall : ∀ line ∈ first :: more, '\n' ∉ line := fun line hline =>
    Text.notMem_of_mem_split (hlines ▸ hline)
  obtain ⟨hfirst, hmore⟩ := List.forall_mem_cons.mp hall
  let result := scanLine Position.start first >>= fun lexemes =>
    (scanLines 0 2 ⟨1, 1 + Source.byteLength first⟩ more).map (lexemes ++ ·)
  have hruns : Scanner.Runs (.ofText source) result := by
    rw [Scanner.ofText, Place.ofText, eq_of_lines hlines]
    refine Scanner.runs_line hfirst (fun a ha => head?_flatMap_newline ha) fun lexemes _ => ?_
    exact Scanner.runs_lines hmore ⟨1, 1 + Source.byteLength first⟩ 0 lexemes
  have hscan : scan source = result.map dropEmptyLines := by
    simp only [scan, hlines, result]
    cases scanLine Position.start first with
    | error e => rfl
    | ok lexemes =>
        cases scanLines 0 2 ⟨1, 1 + Source.byteLength first⟩ more with
        | error e => rfl
        | ok rest => rfl
  rw [hscan]
  constructor
  · exact fun h => ⟨result, hruns, h⟩
  · rintro ⟨r', hruns', h⟩
    rw [hruns.unique hruns']
    exact h

end Token

end Octet
