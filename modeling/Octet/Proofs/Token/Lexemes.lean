import Mathlib.Data.List.Basic
import Mathlib.Data.List.TakeWhile
import Octet.Proofs.Result
import Octet.Token.Scan

/-!
The lexemes of a line, as rules. A lexeme is a word, a number or a sign, and it
goes as far as it can: the character behind it, if there is one, would not make
a longer lexeme. The lexemes of a line follow each other with any number of
spaces in front of each.

Cutting a line into tokens obeys the rules and gives the only tokens that they
allow.
-/

namespace Octet.Token

/-! ### Lexemes -/

/-- The kinds of tokens that stand for characters of the text. The others stand
for its layout. -/
def Kind.isLexeme : Kind → Bool
  | .eof | .newline | .indent | .dedent => false
  | _ => true

def Kind.isStep (k : Kind) : Bool := k = .indent || k = .dedent

/-- The kinds of lexemes that have one spelling, and that spelling no word. -/
def Kind.signs : List Kind :=
  [.colon, .comma, .arrow, .leftParen, .rightParen, .plus, .minus, .equal, .notEqual, .assign]

/-- A letter or an underscore, and then any number of letters, digits and
underscores. -/
def isWord : List Char → Bool
  | [] => false
  | c :: tail => startsWord c && tail.all continuesWord

/-- A row of characters is a lexeme of a kind. -/
inductive Lexeme : Kind → List Char → Prop where
  | sign {k : Kind} : k ∈ Kind.signs → Lexeme k k.spelling.toList
  | number {cs : List Char} : cs ≠ [] → (∀ c ∈ cs, c.isDigit = true) → Lexeme .number cs
  | keyword {k : Kind} {w : String} : (w, k) ∈ Kind.reservedWords → Lexeme k w.toList
  | identifier {cs : List Char} : isWord cs = true →
      (∀ k, (String.ofList cs, k) ∉ Kind.reservedWords) → Lexeme .identifier cs

/-- Behind a lexeme of the kind the character would belong to a longer one. -/
def Kind.goesOn : Kind → Char → Bool
  | .number, c => c.isDigit
  | .assign, c => c == '='
  | .minus, c => c == '>'
  | .colon, _ | .comma, _ | .arrow, _ | .leftParen, _ | .rightParen, _ | .plus, _ | .equal, _
  | .notEqual, _ => false
  | _, c => continuesWord c

/-- A lexeme of the kind is over in front of the characters. -/
def Kind.Ends (k : Kind) (rest : List Char) : Prop := ∀ c ∈ rest.head?, k.goesOn c = false

theorem isStep_of_isLexeme {k : Kind} (h : k.isLexeme = true) : k.isStep = false := by
  cases k <;> first | rfl | cases h

theorem kind_cases (k : Kind) :
    k.isLexeme = true ∨ k.isStep = true ∨ k = .newline ∨ k = .eof := by
  cases k <;> simp [Kind.isLexeme, Kind.isStep]

theorem reserved?_eq_some_iff {w : String} {k : Kind} :
    Kind.reserved? w = some k ↔ (w, k) ∈ Kind.reservedWords := by
  constructor
  · intro h
    obtain ⟨front, back, hwords, -⟩ := List.lookup_eq_some_iff.mp h
    rw [hwords]
    simp
  · have hall : ∀ p ∈ Kind.reservedWords, Kind.reserved? p.1 = some p.2 := by decide
    exact hall (w, k)

theorem isWord_of_reserved {w : String} {k : Kind} (h : (w, k) ∈ Kind.reservedWords) :
    isWord w.toList = true := by
  have hall : ∀ p ∈ Kind.reservedWords, isWord p.1.toList = true := by decide
  exact hall (w, k) h

theorem lexeme_sign {k : Kind} {cs : List Char} (hk : k ∈ Kind.signs)
    (hcs : k.spelling.toList = cs) : Lexeme k cs := hcs ▸ .sign hk

/-- A word is a lexeme of the kind that it has. -/
theorem lexeme_ofWord {cs : List Char} (h : isWord cs = true) :
    Lexeme (Kind.ofWord (String.ofList cs)) cs := by
  unfold Kind.ofWord
  cases hk : Kind.reserved? (String.ofList cs) with
  | some k => simpa using Lexeme.keyword (reserved?_eq_some_iff.mp hk)
  | none =>
      refine .identifier h fun k hmem => ?_
      rw [reserved?_eq_some_iff.mpr hmem] at hk
      cases hk

theorem ofWord_of_reserved {w : String} {k : Kind} (h : (w, k) ∈ Kind.reservedWords) :
    Kind.ofWord w = k := by
  rw [Kind.ofWord, reserved?_eq_some_iff.mpr h]
  rfl

theorem goesOn_ofWord (w : String) (c : Char) : (Kind.ofWord w).goesOn c = continuesWord c := by
  unfold Kind.ofWord
  cases hk : Kind.reserved? w with
  | none => rfl
  | some k =>
      have hall : ∀ p ∈ Kind.reservedWords, p.2.goesOn = continuesWord := by
        simp [Kind.reservedWords, funext_iff, Kind.goesOn]
      exact congrFun (hall (w, k) (reserved?_eq_some_iff.mp hk)) c

/-! ### Cutting off a lexeme -/

theorem head?_dropWhile {p : Char → Bool} {cs : List Char} {c : Char}
    (h : c ∈ (cs.dropWhile p).head?) : p c = false := by
  have hstop := List.head?_dropWhile_not p cs
  rwa [Option.mem_def.mp h] at hstop

theorem takeWhile_append_stop {p : Char → Bool} {w rest : List Char} (hw : ∀ c ∈ w, p c = true)
    (hrest : ∀ c ∈ rest.head?, p c = false) : (w ++ rest).takeWhile p = w := by
  rw [List.takeWhile_append_of_pos hw]
  cases rest with
  | nil => simp
  | cons c rest =>
      have hc : ¬ p c = true := by simp [hrest c rfl]
      rw [List.takeWhile_cons_of_neg hc, List.append_nil]

/-- The lexeme that is cut off is one, and the longest. -/
theorem lexeme_of_lexeme? {c : Char} {cs tail : List Char} {k : Kind}
    (h : lexeme? c cs = some (k, tail)) :
    ∃ rest, cs = tail ++ rest ∧ Lexeme k (c :: tail) ∧ k.Ends rest := by
  unfold lexeme? at h
  split at h
  -- A sign of two characters ends whatever stands behind it.
  iterate 3
    · next rest =>
        cases h
        exact ⟨rest, rfl, lexeme_sign (by decide) rfl, fun _ _ => rfl⟩
  iterate 3
    · cases h
      exact ⟨cs, rfl, lexeme_sign (by decide) rfl, fun _ _ => rfl⟩
  -- The first character of an arrow or a comparison is a sign too, if the second is missing.
  iterate 2
    · next hnext =>
        cases h
        refine ⟨cs, rfl, lexeme_sign (by decide) rfl, fun d hd => beq_false_of_ne ?_⟩
        rintro rfl
        exact hnext cs.tail (List.eq_cons_of_mem_head? hd)
  iterate 2
    · cases h
      exact ⟨cs, rfl, lexeme_sign (by decide) rfl, fun _ _ => rfl⟩
  · split at h
    · next hdigit =>
        cases h
        refine ⟨cs.dropWhile Char.isDigit, List.takeWhile_append_dropWhile.symm, .number ?_ ?_, ?_⟩
        · simp
        · intro d hd
          rcases List.mem_cons.mp hd with rfl | hd
          · exact hdigit
          · exact List.mem_takeWhile_imp hd
        · exact fun d hd => head?_dropWhile hd
    · split at h
      · next hstart =>
          cases h
          refine ⟨cs.dropWhile continuesWord, List.takeWhile_append_dropWhile.symm,
            lexeme_ofWord ?_, fun d hd => ?_⟩
          · simp [isWord, hstart, List.all_takeWhile]
          · rw [goesOn_ofWord]
            exact head?_dropWhile hd
      · cases h

/-- The signs start with characters that start neither a number nor a word. -/
theorem lexeme?_of_class {c : Char} (h : c.isDigit = true ∨ startsWord c = true)
    (cs : List Char) :
    lexeme? c cs = if c.isDigit then some (.number, cs.takeWhile Char.isDigit)
      else some (Kind.ofWord (String.ofList (c :: cs.takeWhile continuesWord)),
        cs.takeWhile continuesWord) := by
  have hne {d : Char} (hd : d.isDigit = false ∧ startsWord d = false) : c ≠ d := by
    rintro rfl
    simp [hd.1, hd.2] at h
  unfold lexeme?
  split
  iterate 10 · exact absurd rfl (hne ⟨rfl, rfl⟩)
  by_cases hdigit : c.isDigit = true
  · rw [if_pos hdigit, if_pos hdigit]
  · rw [if_neg hdigit, if_neg hdigit, if_pos (h.resolve_left hdigit)]

/-- Letters are those of the first 128 characters. -/
theorem toNat_of_isAlpha {c : Char} (h : c.isAlpha = true) :
    (65 ≤ c.toNat ∧ c.toNat ≤ 90) ∨ (97 ≤ c.toNat ∧ c.toNat ≤ 122) := by
  change (decide ('A'.val ≤ c.val ∧ c.val ≤ 'Z'.val) ||
    (decide ('a'.val ≤ c.val) && decide (c.val ≤ 'z'.val))) = true at h
  rw [Bool.or_eq_true, Bool.and_eq_true, decide_eq_true_eq, decide_eq_true_eq,
    decide_eq_true_eq] at h
  exact h

theorem toNat_of_isDigit {c : Char} (h : c.isDigit = true) : 48 ≤ c.toNat ∧ c.toNat ≤ 57 := by
  change (decide ('0'.val ≤ c.val) && decide (c.val ≤ '9'.val)) = true at h
  rw [Bool.and_eq_true, decide_eq_true_eq, decide_eq_true_eq] at h
  exact h

theorem isDigit_of_startsWord {c : Char} (h : startsWord c = true) : c.isDigit = false := by
  simp only [startsWord, Bool.or_eq_true, beq_iff_eq] at h
  rcases h with h | rfl
  · by_contra hdigit
    have hletter := toNat_of_isAlpha h
    have hrange := toNat_of_isDigit (eq_true_of_ne_false hdigit)
    omega
  · rfl

theorem lexeme?_of_word {c : Char} {tail rest : List Char} (h : isWord (c :: tail) = true)
    (hends : ∀ d ∈ rest.head?, continuesWord d = false) :
    lexeme? c (tail ++ rest) = some (Kind.ofWord (String.ofList (c :: tail)), tail) := by
  simp only [isWord, Bool.and_eq_true, List.all_eq_true] at h
  have hdigit : ¬ c.isDigit = true := by simp [isDigit_of_startsWord h.1]
  rw [lexeme?_of_class (.inr h.1), if_neg hdigit, takeWhile_append_stop h.2 hends]

theorem lexeme?_minus {rest : List Char} (h : Kind.minus.Ends rest) :
    lexeme? '-' rest = some (.minus, []) := by
  cases rest with
  | nil => rfl
  | cons c rest =>
      have hc : c ≠ '>' := ne_of_beq_false (h c rfl)
      simp [lexeme?, hc]

theorem lexeme?_assign {rest : List Char} (h : Kind.assign.Ends rest) :
    lexeme? '=' rest = some (.assign, []) := by
  cases rest with
  | nil => rfl
  | cons c rest =>
      have hc : c ≠ '=' := ne_of_beq_false (h c rfl)
      simp [lexeme?, hc]

/-- A lexeme that the next character does not make longer is cut off. -/
theorem lexeme?_of_lexeme {c : Char} {tail rest : List Char} {k : Kind}
    (h : Lexeme k (c :: tail)) (hends : k.Ends rest) :
    lexeme? c (tail ++ rest) = some (k, tail) := by
  generalize hw : c :: tail = w at h
  cases h with
  | sign hk =>
      simp only [Kind.signs, List.mem_cons, List.not_mem_nil, or_false] at hk
      rcases hk with rfl | rfl | rfl | rfl | rfl | rfl | rfl | rfl | rfl | rfl <;> cases hw
      -- Two of the signs begin another one, which the next character rules out.
      all_goals first | rfl | exact lexeme?_minus hends | exact lexeme?_assign hends
  | number hne hdigits =>
      subst hw
      have hc := hdigits c (by simp)
      rw [lexeme?_of_class (.inl hc), if_pos hc,
        takeWhile_append_stop (fun d hd => hdigits d (by simp [hd])) hends]
  | keyword hk =>
      rename_i w
      have hkind := ofWord_of_reserved hk
      have hstop : ∀ d ∈ rest.head?, continuesWord d = false := by
        intro d hd
        rw [← goesOn_ofWord w d, hkind]
        exact hends d hd
      rw [lexeme?_of_word (hw ▸ isWord_of_reserved hk) hstop, hw, String.ofList_toList, hkind]
  | identifier hword hfree =>
      subst hw
      have hkind : Kind.ofWord (String.ofList (c :: tail)) = .identifier := by
        cases hk : Kind.reserved? (String.ofList (c :: tail)) with
        | none => rw [Kind.ofWord, hk]; rfl
        | some k => exact absurd (reserved?_eq_some_iff.mp hk) (hfree k)
      rw [lexeme?_of_word hword hends, hkind]

theorem Lexeme.exists_cons {k : Kind} {cs : List Char} (h : Lexeme k cs) :
    ∃ c tail, cs = c :: tail ∧ c ≠ ' ' := by
  have hword {cs : List Char} (h : isWord cs = true) : ∃ c tail, cs = c :: tail ∧ c ≠ ' ' := by
    cases cs with
    | nil => cases h
    | cons c tail =>
        refine ⟨c, tail, rfl, ?_⟩
        rintro rfl
        simp [isWord, startsWord] at h
  cases h with
  | sign hk =>
      have hall : ∀ k ∈ Kind.signs, k.spelling.toList.headD ' ' ≠ ' ' := by decide
      have hhead := hall k hk
      cases hcs : k.spelling.toList with
      | nil => rw [hcs] at hhead; exact absurd rfl hhead
      | cons c tail => rw [hcs] at hhead; exact ⟨c, tail, rfl, hhead⟩
  | number hne hdigits =>
      cases cs with
      | nil => exact absurd rfl hne
      | cons c tail =>
          refine ⟨c, tail, rfl, ?_⟩
          rintro rfl
          exact absurd (hdigits ' ' (by simp)) (by decide)
  | keyword hk => exact hword (isWord_of_reserved hk)
  | identifier h _ => exact hword h

theorem Lexeme.isLexeme {k : Kind} {cs : List Char} (h : Lexeme k cs) : k.isLexeme = true := by
  cases h with
  | sign hk =>
      have hall : ∀ k ∈ Kind.signs, k.isLexeme = true := by decide
      exact hall k hk
  | number _ _ => rfl
  | @keyword k w hk =>
      have hall : ∀ p ∈ Kind.reservedWords, p.2.isLexeme = true := by decide
      exact hall (w, k) hk
  | identifier _ _ => rfl

/-! ### The longest lexeme -/

/-- What a lexeme is shows in its first character. -/
theorem Lexeme.cases_head {k : Kind} {c : Char} {cs : List Char} (h : Lexeme k (c :: cs)) :
    (c.isDigit = true ∧ k = .number ∧ ∀ d ∈ cs, d.isDigit = true) ∨
      (startsWord c = true ∧ k.goesOn = continuesWord ∧ ∀ d ∈ cs, continuesWord d = true) ∨
      (c.isDigit = false ∧ startsWord c = false ∧ k ∈ Kind.signs ∧
        k.spelling.toList = c :: cs) := by
  have hword (h : isWord (c :: cs) = true) :
      startsWord c = true ∧ ∀ d ∈ cs, continuesWord d = true := by
    simpa only [isWord, Bool.and_eq_true, List.all_eq_true] using h
  generalize hw : c :: cs = w at h
  cases h with
  | sign hk =>
      have hall : (Kind.signs.all fun k => k.spelling.toList.head?.all fun c =>
          !c.isDigit && !startsWord c) = true := rfl
      obtain ⟨hdigit, hstart⟩ : c.isDigit = false ∧ startsWord c = false := by
        have hc := List.all_eq_true.mp hall k hk
        rw [← hw] at hc
        simpa using hc
      exact .inr (.inr ⟨hdigit, hstart, hk, rfl⟩)
  | number _ hdigits =>
      subst hw
      exact .inl ⟨hdigits c (by simp), rfl, fun d hd => hdigits d (by simp [hd])⟩
  | @keyword k w hk =>
      have hgoes : k.goesOn = continuesWord := by
        funext d
        rw [← ofWord_of_reserved hk, goesOn_ofWord]
      obtain ⟨hstart, htail⟩ := hword (hw ▸ isWord_of_reserved hk)
      exact .inr (.inl ⟨hstart, hgoes, htail⟩)
  | identifier h _ =>
      subst hw
      obtain ⟨hstart, htail⟩ := hword h
      exact .inr (.inl ⟨hstart, rfl, htail⟩)

/-- A sign that goes on behind another one goes on as that one does. -/
theorem goesOn_of_signs {k l : Kind} {c : Char} {w : List Char} (hk : k ∈ Kind.signs)
    (hl : l ∈ Kind.signs) (h : l.spelling.toList = k.spelling.toList ++ c :: w) :
    k.goesOn c = true := by
  have hall : (Kind.signs.all fun k => Kind.signs.all fun l =>
      !k.spelling.toList.isPrefixOf l.spelling.toList ||
        (l.spelling.toList.drop k.spelling.toList.length).head?.all k.goesOn) = true := rfl
  have hboth := List.all_eq_true.mp (List.all_eq_true.mp hall k hk) l hl
  have hprefixes : k.spelling.toList.isPrefixOf (k.spelling.toList ++ c :: w) = true :=
    List.isPrefixOf_iff_prefix.mpr (List.prefix_append _ _)
  rw [h, hprefixes, List.drop_left] at hboth
  simpa using hboth

/-- A lexeme that goes on behind another one goes on as that one does. -/
theorem Lexeme.goesOn {k l : Kind} {v w : List Char} {c : Char} (hv : Lexeme k v)
    (hw : Lexeme l (v ++ c :: w)) : k.goesOn c = true := by
  obtain ⟨d, cs, rfl, -⟩ := hv.exists_cons
  -- Both lexemes start with the same character, so that they are of the same sort.
  rcases hv.cases_head with ⟨hd, rfl, -⟩ | ⟨hd, hgoes, -⟩ | ⟨hdigit, hstart, hk, hspell⟩ <;>
    rcases hw.cases_head with ⟨hd', -, hall⟩ | ⟨hd', -, hall⟩ | ⟨hdigit', hstart', hl, hspell'⟩
  · exact hall c (by simp)
  · simp [isDigit_of_startsWord hd'] at hd
  · simp [hd] at hdigit'
  · simp [isDigit_of_startsWord hd] at hd'
  · rw [hgoes]
    exact hall c (by simp)
  · simp [hd] at hstart'
  · simp [hd'] at hdigit
  · simp [hd'] at hstart
  · apply goesOn_of_signs hk hl
    rw [hspell, hspell']
    rfl

/-- Where a lexeme ends, no longer one with the same beginning goes on. -/
theorem Lexeme.length_le {k l : Kind} {v w rest : List Char} (hv : Lexeme k v)
    (hends : k.Ends rest) (hw : Lexeme l w) (hpre : w <+: v ++ rest) : w.length ≤ v.length := by
  obtain ⟨tail, htail⟩ := hpre
  rcases List.append_eq_append_iff.mp htail with ⟨us, rfl, -⟩ | ⟨us, rfl, hrest⟩
  · simp
  · cases us with
    | nil => simp
    | cons c us =>
        have hstop := hends c (by rw [hrest]; rfl)
        rw [hv.goesOn hw] at hstop
        cases hstop

def Kind.isKeyword (k : Kind) : Bool := (Kind.reservedWords.map Prod.snd).contains k

/-- A lexeme is a keyword just when it is a reserved word. -/
theorem Lexeme.reserved_iff {k : Kind} {w : String} (h : Lexeme k w.toList) (l : Kind) :
    (w, l) ∈ Kind.reservedWords ↔ k = l ∧ l.isKeyword = true := by
  generalize hcs : w.toList = cs at h
  cases h with
  | sign hk =>
      have hall : ∀ k ∈ Kind.signs, k.isKeyword = false ∧ ∀ p ∈ Kind.reservedWords,
          p.1 ≠ k.spelling := by decide
      obtain ⟨hkey, hne⟩ := hall k hk
      constructor
      · exact fun hl => absurd (String.toList_inj.mp hcs) (hne (w, l) hl)
      · rintro ⟨rfl, hl⟩
        simp [hkey] at hl
  | number hne hdigits =>
      constructor
      · intro hl
        have hword := isWord_of_reserved hl
        obtain ⟨c, tail, rfl⟩ := List.exists_cons_of_ne_nil hne
        rw [hcs, isWord, Bool.and_eq_true] at hword
        have hdigit := hdigits c (by simp)
        rw [isDigit_of_startsWord hword.1] at hdigit
        cases hdigit
      · rintro ⟨rfl, hl⟩
        cases hl
  | @keyword k v hk =>
      obtain rfl := String.toList_inj.mp hcs
      constructor
      · intro hl
        refine ⟨by rw [← ofWord_of_reserved hk, ← ofWord_of_reserved hl], ?_⟩
        exact List.contains_iff_mem.mpr (List.mem_map_of_mem hl)
      · rintro ⟨rfl, -⟩
        exact hk
  | identifier h hfree =>
      rw [← hcs, String.ofList_toList] at hfree
      constructor
      · exact fun hl => absurd hl (hfree l)
      · rintro ⟨rfl, hl⟩
        cases hl

/-! ### Lines -/

/-- The tokens of a line that starts at a position. -/
inductive ScansLine : Position → List Char → List Token → Prop where
  | nil {p : Position} : ScansLine p [] []
  | space {p : Position} {cs : List Char} {ts : List Token} : ScansLine (p.right 1) cs ts →
      ScansLine p (' ' :: cs) ts
  | lexeme {p : Position} {k : Kind} {w rest : List Char} {ts : List Token} : Lexeme k w →
      k.Ends rest → ScansLine (p.right w.length) rest ts →
      ScansLine p (w ++ rest) (⟨k, String.ofList w, p⟩ :: ts)

theorem scansLine_of_scanLine {p : Position} {cs : List Char} {ts : List Token}
    (h : scanLine p cs = .ok ts) : ScansLine p cs ts := by
  fun_induction scanLine p cs generalizing ts with
  | case1 p =>
      cases h
      exact .nil
  | case2 p cs ih => exact .space (ih h)
  | case3 p c cs hc hnone => cases h
  | case4 p c cs hc k tail hsome ih =>
      obtain ⟨more, hmore, hts⟩ := Result.bind_ok.mp h
      obtain rfl := Result.pure_ok.mp hts
      obtain ⟨rest, rfl, hlexeme, hends⟩ := lexeme_of_lexeme? hsome
      rw [List.drop_left] at ih hmore
      have hrest := ih hmore
      rw [Nat.add_comm] at hrest
      exact .lexeme hlexeme hends hrest

theorem scanLine_of_scansLine {p : Position} {cs : List Char} {ts : List Token}
    (h : ScansLine p cs ts) : scanLine p cs = .ok ts := by
  induction h with
  | nil => rw [scanLine]
  | space _ ih => rw [scanLine, if_pos rfl, ih]
  | @lexeme p k w rest ts hlexeme hends _ ih =>
      obtain ⟨c, tail, rfl, hc⟩ := hlexeme.exists_cons
      rw [List.length_cons, Nat.add_comm] at ih
      rw [List.cons_append, scanLine, if_neg hc, lexeme?_of_lexeme hlexeme hends]
      simp only [List.drop_left, ih]
      rfl

/-- Cutting a line gives the tokens that the rules allow. -/
theorem scanLine_ok {p : Position} {cs : List Char} {ts : List Token} :
    scanLine p cs = .ok ts ↔ ScansLine p cs ts :=
  ⟨scansLine_of_scanLine, scanLine_of_scansLine⟩

/-- Every token of a line is a lexeme. -/
theorem ScansLine.isLexeme {p : Position} {line : List Char} {ts : List Token}
    (h : ScansLine p line ts) : ∀ t ∈ ts, t.kind.isLexeme = true := by
  induction h with
  | nil => simp
  | space _ ih => exact ih
  | lexeme hlexeme _ _ ih =>
      intro t ht
      rcases List.mem_cons.mp ht with rfl | ht
      · exact hlexeme.isLexeme
      · exact ih t ht

theorem ScansLine.position_line {p : Position} {line : List Char} {ts : List Token}
    (h : ScansLine p line ts) : ∀ t ∈ ts, t.position.line = p.line := by
  induction h with
  | nil => simp
  | space _ ih => exact ih
  | lexeme _ _ _ ih =>
      intro t ht
      rcases List.mem_cons.mp ht with rfl | ht
      · rfl
      · exact ih t ht

end Octet.Token
