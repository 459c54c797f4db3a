import Octet.Proofs.Token.Layout
import Octet.Proofs.Token.Tiling

/-!
Which texts have no tokens, and why. Two things may be wrong with a line: its
indentation, unless it is the first line or holds spaces only, and each
character that has no place between its neighbours. Scanning fails just when
something is wrong, and then it tells what comes first in the text.

Scanning stops at the first character that starts no lexeme, without a look at
what stands in front of it. That is enough because no lexeme ends between the
two characters of an arrow.
-/

namespace Octet.Token

/-! ### Characters and their neighbours -/

/-- The character may stand anywhere in a line. -/
def isOrdinary (c : Char) : Bool :=
  [' ', '(', ')', '+', '-', '=', ':', ','].contains c || continuesWord c

/-- The character has a place between those in front of it and those behind it
in its line. An exclamation mark needs an equals sign behind it, and the tip of
an arrow needs a minus sign in front of it. -/
def Belongs (before : List Char) (c : Char) (after : List Char) : Prop :=
  isOrdinary c = true ∨ (c = '!' ∧ after.head? = some '=') ∨
    (c = '>' ∧ before.getLast? = some '-')

def AllBelong (front cs rest : List Char) : Prop :=
  ∀ before c after, cs = before ++ c :: after → Belongs (front ++ before) c (after ++ rest)

theorem AllBelong.of_ordinary {cs : List Char} (h : ∀ c ∈ cs, isOrdinary c = true)
    (front rest : List Char) : AllBelong front cs rest := by
  rintro before c after rfl
  exact .inl (h c (by simp))

theorem isOrdinary_of_isWord {cs : List Char} (h : isWord cs = true) :
    ∀ c ∈ cs, isOrdinary c = true := by
  intro c hc
  rw [isOrdinary, continuesWord_of_isWord h c hc, Bool.or_true]

theorem isOrdinary_of_isDigit {c : Char} (h : c.isDigit = true) : isOrdinary c = true := by
  simp [isOrdinary, continuesWord, Char.isAlphanum, h]

/-- In front of the others there is a character that has its place. -/
theorem AllBelong.cons {front cs rest : List Char} {c : Char} (hc : Belongs front c (cs ++ rest))
    (hcs : AllBelong (front ++ [c]) cs rest) : AllBelong front (c :: cs) rest := by
  intro before d after h
  cases before with
  | nil =>
      obtain ⟨rfl, rfl⟩ := List.cons.inj h
      rwa [List.append_nil]
  | cons b before =>
      obtain ⟨rfl, htail⟩ := List.cons.inj h
      simpa using hcs before d after htail

theorem AllBelong.nil (front rest : List Char) : AllBelong front [] rest :=
  .of_ordinary (by simp) _ _

theorem allBelong_sign {k : Kind} (hk : k ∈ Kind.signs) (front rest : List Char) :
    AllBelong front k.spelling.toList rest := by
  by_cases hplain : k.spelling.toList.all isOrdinary = true
  · exact .of_ordinary (List.all_eq_true.mp hplain) _ _
  -- Two of the signs have a character that is not ordinary.
  have htwo : k = .arrow ∨ k = .notEqual := by
    have hall : (Kind.signs.all fun k => k.spelling.toList.all isOrdinary || k == .arrow ||
        k == .notEqual) = true := rfl
    have hsign := List.all_eq_true.mp hall k hk
    simpa only [hplain, Bool.false_or, Bool.or_eq_true, beq_iff_eq] using hsign
  rcases htwo with rfl | rfl
  · exact .cons (.inl rfl) (.cons (.inr (.inr ⟨rfl, List.getLast?_concat⟩)) (.nil _ _))
  · exact .cons (.inr (.inl ⟨rfl, rfl⟩)) (.cons (.inl rfl) (.nil _ _))

/-- The characters of a lexeme have their places, wherever it stands. -/
theorem Lexeme.allBelong {k : Kind} {w : List Char} (h : Lexeme k w) (front rest : List Char) :
    AllBelong front w rest := by
  cases h with
  | sign hk => exact allBelong_sign hk _ _
  | number _ hdigits => exact .of_ordinary (fun c hc => isOrdinary_of_isDigit (hdigits c hc)) _ _
  | keyword hk => exact .of_ordinary (isOrdinary_of_isWord (isWord_of_reserved hk)) _ _
  | identifier hword _ => exact .of_ordinary (isOrdinary_of_isWord hword) _ _

/-- No arrow is cut in two between the characters. -/
def Apart (front rest : List Char) : Prop := front.getLast? = some '-' → rest.head? ≠ some '>'

theorem apart_nil (rest : List Char) : Apart [] rest := nofun

/-- A lexeme that ends in a minus sign is one. -/
theorem Lexeme.eq_minus {k : Kind} {w : List Char} (h : Lexeme k w)
    (hlast : w.getLast? = some '-') : k = .minus := by
  have hword {cs : List Char} (hcs : ∀ c ∈ cs, continuesWord c = true) :
      cs.getLast? ≠ some '-' := by
    intro hlast
    exact absurd (hcs '-' (List.mem_of_getLast? hlast)) (by decide)
  cases h with
  | sign hk =>
      have hall : ∀ k ∈ Kind.signs, k.spelling.toList.getLast? = some '-' → k = .minus := by decide
      exact hall k hk hlast
  | number _ hdigits =>
      exact absurd (hdigits '-' (List.mem_of_getLast? hlast)) (by decide)
  | keyword hk => exact absurd hlast (hword (continuesWord_of_isWord (isWord_of_reserved hk)))
  | identifier h _ => exact absurd hlast (hword (continuesWord_of_isWord h))

theorem Lexeme.apart {k : Kind} {w rest : List Char} (h : Lexeme k w) (hends : k.Ends rest)
    (front : List Char) : Apart (front ++ w) rest := by
  intro hlast hhead
  obtain ⟨c, tail, rfl, -⟩ := h.exists_cons
  rw [List.getLast?_append_of_ne_nil _ (List.cons_ne_nil c tail)] at hlast
  obtain rfl := h.eq_minus hlast
  exact absurd (hends '>' hhead) (by decide)

/-- An ordinary character is a space or starts a lexeme. -/
theorem lexeme?_of_isOrdinary {c : Char} (h : isOrdinary c = true) (hc : c ≠ ' ')
    (cs : List Char) : lexeme? c cs ≠ none := by
  simp only [isOrdinary, Bool.or_eq_true, List.contains_iff_mem, List.mem_cons, List.not_mem_nil,
    or_false] at h
  rcases h with (rfl | rfl | rfl | rfl | rfl | rfl | rfl | rfl) | hword
  · exact absurd rfl hc
  iterate 7 · unfold lexeme?; split <;> simp_all
  · have hclass : c.isDigit = true ∨ startsWord c = true := by
      simp only [continuesWord, startsWord, Char.isAlphanum, Bool.or_eq_true] at hword ⊢
      tauto
    rw [lexeme?_of_class hclass]
    split <;> simp

/-- A character that starts no lexeme does not belong where it stands. -/
theorem not_belongs_of_lexeme? {front cs : List Char} {c : Char} (hc : c ≠ ' ')
    (hnone : lexeme? c cs = none) (hapart : Apart front (c :: cs)) : ¬ Belongs front c cs := by
  rintro (hordinary | ⟨rfl, hhead⟩ | ⟨rfl, hlast⟩)
  · exact lexeme?_of_isOrdinary hordinary hc cs hnone
  · rw [List.eq_cons_of_mem_head? hhead] at hnone
    cases hnone
  · exact hapart hlast rfl

/-! ### The first of several offences -/

/-- The result of a scan tells of the first offence, or there is none. -/
structure Reports {α : Type} (offence : ScanError → Prop) (r : Except ScanError α) : Prop where
  none_of_ok : ∀ a, r = .ok a → ∀ e, ¬ offence e
  first_of_error : ∀ e, r = .error e →
    offence e ∧ ∀ e', offence e' → e' = e ∨ Before e.position e'.position

namespace Reports

variable {α β : Type} {offence offence' : ScanError → Prop} {r : Except ScanError α}

theorem of_ok {a : α} (h : ∀ e, ¬ offence e) : Reports offence (.ok a) :=
  ⟨fun _ _ => h, fun _ hr => nomatch hr⟩

theorem of_error {e : ScanError} (he : offence e)
    (hfirst : ∀ e', offence e' → e' = e ∨ Before e.position e'.position) :
    Reports offence (.error e : Except ScanError α) := by
  refine ⟨fun _ hr => (nomatch hr), fun e' hr => ?_⟩
  cases hr
  exact ⟨he, hfirst⟩

theorem congr (h : Reports offence r) (hiff : ∀ e, offence' e ↔ offence e) :
    Reports offence' r := by
  rwa [show offence' = offence from funext fun e => propext (hiff e)]

/-- Of two scans that follow each other, the second tells of what stands behind
what the first tells of. -/
theorem bind {f : α → Except ScanError β} (h : Reports offence r)
    (hf : ∀ a, r = .ok a → Reports offence' (f a))
    (hbefore : ∀ e e', offence e → offence' e' → Before e.position e'.position) :
    Reports (fun e => offence e ∨ offence' e) (r >>= f) := by
  cases r with
  | ok a =>
      refine (hf a rfl).congr fun e => ?_
      exact or_iff_right (h.none_of_ok a rfl e)
  | error e =>
      obtain ⟨he, hfirst⟩ := h.first_of_error e rfl
      exact .of_error (.inl he) fun e' he' => he'.elim (hfirst e') fun he' =>
        .inr (hbefore e e' he he')

theorem map {f : α → β} (h : Reports offence r) : Reports offence (r >>= fun a => pure (f a)) := by
  cases r with
  | ok a => exact .of_ok (h.none_of_ok a rfl)
  | error e => exact .of_error (h.first_of_error e rfl).1 (h.first_of_error e rfl).2

theorem exists_error_iff (h : Reports offence r) : (∃ e, r = .error e) ↔ ∃ e, offence e := by
  constructor
  · rintro ⟨e, he⟩
    exact ⟨e, (h.first_of_error e he).1⟩
  · rintro ⟨e, he⟩
    cases r with
    | ok a => exact absurd he (h.none_of_ok a rfl e)
    | error e' => exact ⟨e', rfl⟩

theorem error_iff (h : Reports offence r) (e : ScanError) : r = .error e ↔
    offence e ∧ ∀ e', offence e' → e' = e ∨ Before e.position e'.position := by
  refine ⟨h.first_of_error e, fun ⟨he, hfirst⟩ => ?_⟩
  obtain ⟨e', hr⟩ := h.exists_error_iff.mpr ⟨e, he⟩
  obtain ⟨he', hfirst'⟩ := h.first_of_error e' hr
  rcases hfirst e' he' with rfl | hbefore
  · exact hr
  rcases hfirst' e he with rfl | hbefore'
  · exact hr
  · have hself := hbefore.trans hbefore'
    simp [Before] at hself

end Reports

/-! ### The offences of a line -/

/-- A character of what is left of a line has no place there. -/
inductive Misfit (p : Position) (front line : List Char) : ScanError → Prop where
  | mk (before : List Char) (c : Char) (after : List Char) : line = before ++ c :: after →
      ¬ Belongs (front ++ before) c after →
      Misfit p front line (.unrecognized (p.right (Source.byteLength before)) c)

theorem misfit_append {p : Position} {front w rest : List Char} {e : ScanError}
    (hw : AllBelong front w rest) (hplain : ∀ c ∈ w, IsPlain c) :
    Misfit p front (w ++ rest) e ↔ Misfit (p.right w.length) (front ++ w) rest e := by
  have hright (before : List Char) : p.right (Source.byteLength (w ++ before)) =
      (p.right w.length).right (Source.byteLength before) := by
    rw [right_right, byteLength_append, byteLength_plain hplain]
  constructor
  · rintro ⟨before, c, after, hline, hmisfit⟩
    rcases List.append_eq_append_iff.mp hline with ⟨us, rfl, hrest⟩ | ⟨us, hus, hrest⟩
    · rw [hright]
      rw [← List.append_assoc] at hmisfit
      exact .mk us c after hrest hmisfit
    · cases us with
      | nil =>
          obtain rfl : w = before := by simpa using hus
          have hhere := Misfit.mk (p := p.right w.length) [] c after hrest.symm
            (by simpa using hmisfit)
          rwa [← hright, List.append_nil] at hhere
      | cons u us =>
          obtain ⟨rfl, rfl⟩ := List.cons.inj hrest
          exact absurd (hw before c us hus) hmisfit
  · rintro ⟨before, c, after, rfl, hmisfit⟩
    rw [← hright]
    rw [List.append_assoc] at hmisfit
    exact .mk (w ++ before) c after (List.append_assoc ..).symm hmisfit

/-- Of what is left of a line, scanning reports the first character that has no
place. -/
theorem misfit_reports {p : Position} {front line : List Char} (hapart : Apart front line) :
    Reports (Misfit p front line) (scanLine p line) := by
  fun_induction scanLine p line generalizing front with
  | case1 p =>
      refine .of_ok ?_
      rintro e ⟨before, c, after, hline, -⟩
      simp at hline
  | case2 p cs ih =>
      have hspace : AllBelong front [' '] cs := .cons (.inl rfl) (.nil _ _)
      have hnext : Apart (front ++ [' ']) cs := by simp [Apart]
      exact (ih hnext).congr fun e =>
        misfit_append hspace (List.forall_mem_singleton.mpr isPlain_space)
  | case3 p c cs hc hnone =>
      have hmisfit := not_belongs_of_lexeme? hc hnone hapart
      refine .of_error (.mk [] c cs rfl (by simpa using hmisfit)) ?_
      rintro e ⟨before, d, after, hline, -⟩
      cases before with
      | nil =>
          cases hline
          exact .inl rfl
      | cons b before =>
          have hsize := b.utf8Size_pos
          refine .inr (.inr ⟨rfl, ?_⟩)
          change p.column < p.column + (b.utf8Size + Source.byteLength before)
          omega
  | case4 p c cs hc k tail hsome ih =>
      obtain ⟨rest, rfl, hlexeme, hends⟩ := lexeme_of_lexeme? hsome
      rw [List.drop_left, Nat.add_comm] at ih ⊢
      refine ((ih (hlexeme.apart hends front)).congr fun e => ?_).map
      exact misfit_append (hlexeme.allBelong front rest) hlexeme.isPlain

/-- The indentation of a line is no whole number of steps. The first line and
lines that hold only spaces may have any. -/
inductive Uneven (n : Nat) (line : List Char) : ScanError → Prop where
  | mk : 1 < n → ¬ Blank line → ¬ indentWidth ∣ Source.leadingSpaces line →
      Uneven n line (.uneven ⟨n, 1⟩ (Source.leadingSpaces line))

theorem uneven_reports {d n : Nat} {line : List Char} {isLast : Bool} (hn : 1 < n) :
    Reports (Uneven n line) (layout d n line isLast) := by
  simp only [layout]
  by_cases hblank : Blank line
  · have hnone : ∀ e, ¬ Uneven n line e := by
      rintro e ⟨-, htext, -⟩
      exact htext hblank
    rw [if_pos (leadingSpaces_eq_length_iff.mpr hblank)]
    split <;> exact .of_ok hnone
  rw [if_neg (leadingSpaces_eq_length_iff.not.mpr hblank)]
  by_cases heven : Source.leadingSpaces line % indentWidth = 0
  · rw [if_neg (not_not.mpr heven)]
    refine .of_ok ?_
    rintro e ⟨-, -, huneven⟩
    exact huneven (Nat.dvd_of_mod_eq_zero heven)
  · rw [if_pos heven]
    refine .of_error (.mk hn hblank fun hdvd => heven (Nat.mod_eq_zero_of_dvd hdvd)) ?_
    rintro e ⟨-, -, -⟩
    exact .inl rfl

/-- Something is wrong with the line of the number: its indentation or one of
its characters. -/
def Offends (n : Nat) (line : List Char) (e : ScanError) : Prop :=
  Uneven n line e ∨ Misfit ⟨n, 1⟩ [] line e

theorem Offends.line_eq {n : Nat} {line : List Char} {e : ScanError} (h : Offends n line e) :
    e.position.line = n := by
  rcases h with h | h
  · cases h
    rfl
  · cases h
    rfl

/-- An uneven line starts with a space, and a space has its place. -/
theorem before_of_uneven {n : Nat} {line : List Char} {e e' : ScanError} (h : Uneven n line e)
    (h' : Misfit ⟨n, 1⟩ [] line e') : Before e.position e'.position := by
  obtain ⟨-, -, hspaces⟩ := h
  obtain ⟨before, c, after, rfl, hmisfit⟩ := h'
  refine .inr ⟨rfl, ?_⟩
  cases before with
  | nil =>
      have hc : c ≠ ' ' := by
        rintro rfl
        exact hmisfit (.inl rfl)
      simp [Source.leadingSpaces, hc] at hspaces
  | cons b before =>
      have hsize := b.utf8Size_pos
      change 1 < 1 + (b.utf8Size + Source.byteLength before)
      omega

/-! ### The offences of a text -/

def OffendsAmong (n : Nat) (lines : List (List Char)) (e : ScanError) : Prop :=
  ∃ i line, lines[i]? = some line ∧ Offends (n + i) line e

theorem offendsAmong_cons {n : Nat} {line : List Char} {more : List (List Char)} {e : ScanError} :
    OffendsAmong n (line :: more) e ↔ Offends n line e ∨ OffendsAmong (n + 1) more e := by
  constructor
  · rintro ⟨i, found, hfound, he⟩
    cases i with
    | zero =>
        cases hfound
        exact .inl he
    | succ i => exact .inr ⟨i, found, hfound, by rwa [Nat.add_right_comm, Nat.add_assoc]⟩
  · rintro (he | ⟨i, found, hfound, he⟩)
    · exact ⟨0, line, rfl, he⟩
    · exact ⟨i + 1, found, hfound, by rwa [← Nat.add_assoc, Nat.add_right_comm]⟩

theorem OffendsAmong.le_line {n : Nat} {lines : List (List Char)} {e : ScanError}
    (h : OffendsAmong n lines e) : n ≤ e.position.line := by
  obtain ⟨i, line, -, he⟩ := h
  rw [he.line_eq]
  exact Nat.le_add_right n i

theorem before_of_offends {n : Nat} {line : List Char} {more : List (List Char)} {e e' : ScanError}
    (h : Offends n line e) (h' : OffendsAmong (n + 1) more e') : Before e.position e'.position := by
  have hline := h.line_eq
  have hmore := h'.le_line
  exact .inl (by omega)

/-- Of some lines, scanning reports the first thing that is wrong. -/
theorem offendsAmong_reports {d n : Nat} {p : Position} {lines : List (List Char)} (hn : 1 < n) :
    Reports (OffendsAmong n lines) (scanLines d n p lines) := by
  induction lines generalizing d n p with
  | nil =>
      refine .of_ok ?_
      rintro e ⟨i, line, hline, -⟩
      simp at hline
  | cons line more ih =>
      rw [scanLines]
      have hline := misfit_reports (p := ⟨n, 1⟩) (apart_nil line)
      have hbefore : ∀ e e', Misfit ⟨n, 1⟩ [] line e → OffendsAmong (n + 1) more e' →
          Before e.position e'.position := fun e e' he => before_of_offends (.inr he)
      refine ((uneven_reports hn).bind (fun indented _ => by
        obtain ⟨steps, deeper⟩ := indented
        exact hline.bind (fun lexemes _ => (ih (Nat.lt_succ_of_lt hn)).map) hbefore) ?_).congr ?_
      · rintro e e' he (he' | he')
        · exact before_of_uneven he he'
        · exact before_of_offends (.inl he) he'
      · intro e
        rw [offendsAmong_cons, Offends, or_assoc]

def Offence (source : String) (e : ScanError) : Prop :=
  ∃ n line, Source.lineAt? source n = some line ∧ Offends n line.toList e

theorem offence_iff {source : String} {e : ScanError} :
    Offence source e ↔ OffendsAmong 1 (Source.lines source.toList) e := by
  constructor
  · rintro ⟨n, line, hline, he⟩
    rw [Source.lineAt?] at hline
    split at hline
    · cases hline
    · next hn =>
        obtain ⟨cs, hcs, rfl⟩ := Option.map_eq_some_iff.mp hline
        have hnumber : 1 + (n - 1) = n := by omega
        rw [String.toList_ofList] at he
        exact ⟨n - 1, cs, hcs, by rwa [hnumber]⟩
  · rintro ⟨i, cs, hcs, he⟩
    refine ⟨1 + i, String.ofList cs, lineAt?_eq_some (by omega) ?_, ?_⟩
    · rwa [Nat.add_sub_cancel_left]
    · rwa [String.toList_ofList]

theorem offence_reports (source : String) : Reports (Offence source) (scan source) := by
  obtain ⟨first, more, hlines⟩ :=
    List.exists_cons_of_ne_nil (Text.split_ne_nil '\n' source.toList)
  change Source.lines source.toList = first :: more at hlines
  simp only [scan, hlines]
  have hfirst := misfit_reports (p := Position.start) (apart_nil first)
  refine (hfirst.bind (fun lexemes _ =>
    (offendsAmong_reports (Nat.lt_succ_self 1)).map) ?_).congr ?_
  · exact fun e e' he => before_of_offends (.inr he)
  · intro e
    -- The first line may have any indentation.
    have heven : ¬ Uneven 1 first e := by
      rintro ⟨hn, -, -⟩
      exact Nat.lt_irrefl 1 hn
    rw [offence_iff, hlines, offendsAmong_cons, Offends, or_iff_right heven]
    rfl

/-- A text has no tokens just when something is wrong with it, and the error is
the first thing that is wrong. -/
theorem scan_rejects (source : String) :
    ((∃ e, scan source = .error e) ↔ ∃ e, Offence source e) ∧
      ∀ e, scan source = .error e ↔
        Offence source e ∧ ∀ e', Offence source e' → e' = e ∨ Before e.position e'.position :=
  ⟨(offence_reports source).exists_error_iff, (offence_reports source).error_iff⟩

example : scan "  u8 -> u8\n \n   é" = .error (.uneven ⟨3, 1⟩ 3) := by decide +kernel

/-- What the other signs and words are made of does not say which texts have no
tokens: the second character of an arrow is none of it. -/
theorem scan_accepts_arrow : ¬ ∀ source : String, (∃ e, scan source = .error e) ↔
    (∃ n line e, Source.lineAt? source n = some line ∧ Uneven n line.toList e) ∨
      ∃ before c after, source.toList = before ++ c :: after ∧
        (¬ (isOrdinary c = true ∨ c = '\n' ∨ c = '!') ∨ c = '!' ∧ after.head? ≠ some '=') := by
  intro h
  have htip : ¬ (isOrdinary '>' = true ∨ '>' = '\n' ∨ '>' = '!') := by decide
  obtain ⟨e, he⟩ := (h "->").mpr (.inr ⟨['-'], '>', [], rfl, .inl htip⟩)
  have hok : (scan "->").toOption.isSome = true := by decide +kernel
  rw [he] at hok
  cases hok

end Octet.Token
