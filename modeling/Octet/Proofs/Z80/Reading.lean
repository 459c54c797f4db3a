import Mathlib.Data.List.Basic
import Octet.Text.Numeral
import Octet.Text.Split
import Octet.Z80.Line

/-!
Reading assembly texts. What runs is not a list of lines but a text, and the
text says which instructions there are: every line ends with a newline, what
stands behind four spaces is a directive or an instruction, and everything else
is a label. Instructions are read by their words.

Reading is the inverse of writing for lines whose labels are words, since a
label with a blank in it would be read as two operands.
-/

namespace Octet.Z80

/-! ### Readers -/

def words (s : List Char) : List String := (Text.split ' ' s).map String.ofList

/-- The distance in an operand that is relative to `ix`, with what has to stand
behind its digits. -/
def indexed? (closing : String) (operand : String) : Option Int :=
  match operand.toList with
  | '(' :: 'i' :: 'x' :: sign :: rest =>
      if rest.dropWhile Char.isDigit = closing.toList then
        let n := Text.decimal (rest.takeWhile Char.isDigit)
        if sign = '+' then some n else if sign = '-' then some (-n) else none
      else none
  | _ => none

def Instr.ofWords? : List String → Option Instr
  | ["ld", "ix,", "0"] => some clearIX
  | ["ld", "sp,", "ix"] => some loadSPIX
  | ["ld", "a,", operand] =>
      match indexed? ")" operand with
      | some d => some (fetchA d)
      | none => (Text.byte? operand).map loadA
  | ["ld", operand, "a"] => (indexed? ")," operand).map storeA
  | ["push", "af"] => some pushAF
  | ["push", "ix"] => some pushIX
  | ["pop", "bc"] => some popBC
  | ["pop", "ix"] => some popIX
  | ["add", "ix,", "sp"] => some addIXSP
  | ["add", "a,", "b"] => some addAB
  | ["neg"] => some neg
  | ["cp", "b"] => some compareB
  | ["cp", operand] => (Text.byte? operand).map compare
  | ["jr", "nz,", l] => some (jumpShortNZ l)
  | ["jp", "nz,", l] => some (jumpNZ l)
  | ["call", l] => some (call l)
  | ["ret"] => some ret
  | ["rst", "$10"] => some printA
  | _ => none

def Directive.ofText? (s : List Char) : Option Directive :=
  if s = "DEVICE ZXSPECTRUM48".toList then some device
  else if s = "org $8000".toList then some origin
  else do
    let rest ← "SAVESNA \"".toList.isPrefixOf? s
    let name ← ".sna\", start".toList.isSuffixOf? rest
    return snapshot (String.ofList name)

/-- The line that a text is, without its end. -/
def Line.ofText? (s : List Char) : Option Line :=
  if s = [] then some blank
  else
    match "    ".toList.isPrefixOf? s with
    | some code =>
        match Directive.ofText? code with
        | some d => some (directive d)
        | none => (Instr.ofWords? (words code)).map instr
    | none => if s.getLast? = some ':' then some (label (String.ofList s.dropLast)) else none

def lines? (text : String) : Option (List Line) :=
  let pieces := Text.split '\n' text.toList
  if pieces.getLast? = some [] then pieces.dropLast.mapM Line.ofText? else none

/-! ### Numbers -/

theorem decimal_toDigits (n : Nat) : Text.decimal (Nat.toDigits 10 n) = n :=
  Nat.ofDigitChars_ten_toDigits

theorem toList_toString (n : Nat) : (toString n).toList = Nat.toDigits 10 n := by
  rw [Nat.toString_eq_ofList_toDigits, String.toList_ofList]

theorem isDigit_toDigits (n : Nat) : ∀ c ∈ Nat.toDigits 10 n, c.isDigit = true :=
  fun _ hc => Nat.isDigit_of_mem_toDigits (by decide) (by decide) hc

theorem notMem_toDigits (n : Nat) {c : Char} (hc : c.isDigit = false) :
    c ∉ Nat.toDigits 10 n := by
  intro hmem
  rw [isDigit_toDigits n c hmem] at hc
  cases hc

theorem byte?_toString (n : UInt8) : Text.byte? (toString n.toNat) = some n := by
  have hsign : Text.unsigned (toString n.toNat).toList = Nat.toDigits 10 n.toNat := by
    rw [toList_toString]
    unfold Text.unsigned
    split
    · next h =>
        have hmem : '+' ∈ Nat.toDigits 10 n.toNat := by rw [h]; simp
        exact absurd hmem (notMem_toDigits _ rfl)
    · rfl
  have hdigits : (Nat.toDigits 10 n.toNat).all Char.isDigit = true :=
    List.all_eq_true.mpr (isDigit_toDigits _)
  rw [Text.byte?]
  simp only [hsign, decimal_toDigits]
  rw [if_pos ⟨Nat.toDigits_ne_nil, hdigits, n.toNat_lt⟩, UInt8.ofNat_toNat]

/-- A distance is written as a sign and digits. -/
theorem toList_signed (d : Int) :
    ((if 0 ≤ d then "+" else "") ++ toString d).toList =
      (if 0 ≤ d then '+' else '-') :: Nat.toDigits 10 d.natAbs := by
  rw [String.toList_append]
  cases d with
  | ofNat n =>
      have hn : 0 ≤ Int.ofNat n := Int.natCast_nonneg n
      rw [if_pos hn, if_pos hn]
      exact congrArg (List.cons '+') (toList_toString n)
  | negSucc n =>
      have hn : ¬ 0 ≤ Int.negSucc n := by omega
      rw [if_neg hn, if_neg hn]
      show ("-" ++ toString (n + 1)).toList = _
      rw [String.toList_append, toList_toString]
      rfl

theorem indexed?_signed {closing : String} {rest : List Char}
    (hclosing : closing.toList = ')' :: rest) (d : Int) {operand : String}
    (h : operand.toList = "(ix".toList ++ ((if 0 ≤ d then "+" else "") ++ toString d).toList ++
      closing.toList) : indexed? closing operand = some d := by
  have hdigits := isDigit_toDigits d.natAbs
  have htake : (Nat.toDigits 10 d.natAbs ++ closing.toList).takeWhile Char.isDigit =
      Nat.toDigits 10 d.natAbs := by
    rw [List.takeWhile_append_of_pos hdigits, hclosing, List.takeWhile_cons_of_neg (by decide),
      List.append_nil]
  have hdrop : (Nat.toDigits 10 d.natAbs ++ closing.toList).dropWhile Char.isDigit =
      closing.toList := by
    rw [List.dropWhile_append_of_pos hdigits, hclosing, List.dropWhile_cons_of_neg (by decide)]
  rw [toList_signed] at h
  have hoperand : operand.toList = '(' :: 'i' :: 'x' :: (if 0 ≤ d then '+' else '-') ::
      (Nat.toDigits 10 d.natAbs ++ closing.toList) := h
  simp only [indexed?, hoperand, hdrop, htake, if_true, decimal_toDigits]
  by_cases hd : 0 ≤ d
  · rw [if_pos hd, if_pos rfl, Int.natAbs_of_nonneg hd]
  · rw [if_neg hd, if_neg (by decide), if_pos rfl, Int.ofNat_natAbs_of_nonpos (by omega)]
    simp

/-! ### Instructions -/

/-- The text has neither a blank nor a line end in it. -/
def IsWord (s : String) : Prop := ∀ c ∈ s.toList, c ≠ ' ' ∧ c ≠ '\n'

theorem isWord_of_all {s : String} (h : s.toList.all (fun c => c != ' ' && c != '\n') = true) :
    IsWord s := by
  intro c hc
  simpa using List.all_eq_true.mp h c hc

theorem words_of_notMem {s : String} (h : ' ' ∉ s.toList) : words s.toList = [s] := by
  rw [words, Text.split_of_notMem h, List.map_singleton, String.ofList_toList]

theorem IsWord.words {s : String} (h : IsWord s) : words s.toList = [s] :=
  words_of_notMem fun hmem => (h _ hmem).1 rfl

theorem isWord_toString (n : Nat) : IsWord (toString n) := by
  intro c hc
  rw [toList_toString] at hc
  have hdigit := isDigit_toDigits n c hc
  constructor <;> rintro rfl <;> cases hdigit

theorem IsWord.append {s t : String} (hs : IsWord s) (ht : IsWord t) : IsWord (s ++ t) := by
  intro c hc
  rw [String.toList_append] at hc
  exact (List.mem_append.mp hc).elim (hs c) (ht c)

theorem isWord_indexed (d : Int) : IsWord (indexed d) := by
  have hsigned : IsWord ((if 0 ≤ d then "+" else "") ++ toString d) := by
    intro c hc
    rw [toList_signed] at hc
    rcases List.mem_cons.mp hc with rfl | hc
    · split <;> decide
    · rw [← toList_toString] at hc
      exact isWord_toString _ c hc
  have hopen : IsWord "(ix" := isWord_of_all rfl
  have hclose : IsWord ")" := isWord_of_all rfl
  have htext : indexed d = "(ix" ++ ((if 0 ≤ d then "+" else "") ++ toString d) ++ ")" := by
    rw [indexed, ← String.append_assoc]
  rw [htext]
  exact (hopen.append hsigned).append hclose

/-- The labels that an instruction names are words. -/
def Instr.Legible : Instr → Prop
  | jumpShortNZ l | jumpNZ l | call l => IsWord l
  | _ => True

theorem indexed?_toString (closing : String) (n : Nat) : indexed? closing (toString n) = none := by
  unfold indexed?
  split
  · next h =>
      rw [toList_toString] at h
      have hmem : '(' ∈ Nat.toDigits 10 n := by rw [h]; simp
      exact absurd hmem (notMem_toDigits n rfl)
  · rfl

theorem Instr.ofWords?_text (i : Instr) (h : i.Legible) :
    ofWords? (words i.text.toList) = some i := by
  cases i with
  | loadA n =>
      have hwords : words (loadA n).text.toList =
          "ld" :: "a," :: words (toString n.toNat).toList := by
        rw [text, String.toList_append]
        rfl
      rw [hwords, (isWord_toString _).words]
      simp only [ofWords?, indexed?_toString, byte?_toString, Option.map_some]
  | fetchA d =>
      have hwords : words (fetchA d).text.toList = "ld" :: "a," :: words (indexed d).toList := by
        rw [text, String.toList_append]
        rfl
      have hread : indexed? ")" (indexed d) = some d :=
        indexed?_signed rfl d (by simp only [indexed, String.toList_append, List.append_assoc])
      rw [hwords, (isWord_indexed d).words]
      simp only [ofWords?, hread]
  | storeA d =>
      have hclosed : IsWord (indexed d ++ ",") :=
        (isWord_indexed d).append (isWord_of_all rfl)
      have hwords : words (storeA d).text.toList = ["ld", indexed d ++ ",", "a"] := by
        have hsplit : (storeA d).text.toList =
            'l' :: 'd' :: ' ' :: ((indexed d ++ ",").toList ++ [' ', 'a']) := by
          simp only [text, String.toList_append, List.append_assoc]
          rfl
        have hpiece := Text.split_append (fun hmem => (hclosed _ hmem).1 rfl) ['a']
        rw [hsplit]
        show String.ofList ['l', 'd'] :: (Text.split ' ' _).map String.ofList = _
        rw [hpiece, List.map_cons, String.ofList_toList]
        rfl
      have hread : indexed? ")," (indexed d ++ ",") = some d :=
        indexed?_signed rfl d (by
          simp only [indexed, String.toList_append, List.append_assoc]
          rfl)
      have hne : indexed d ++ "," ≠ "a," := by
        intro heq
        have hhead := congrArg (fun s => s.toList.head?) heq
        simp [indexed, String.toList_append] at hhead
      rw [hwords]
      simp only [ofWords?, hread, Option.map_some]
  | compare n =>
      have hwords : words (compare n).text.toList = "cp" :: words (toString n.toNat).toList := by
        rw [text, String.toList_append]
        rfl
      have hne : toString n.toNat ≠ "b" := by
        intro heq
        have hmem : 'b' ∈ Nat.toDigits 10 n.toNat := by
          rw [← toList_toString, heq]
          simp
        exact notMem_toDigits _ rfl hmem
      rw [hwords, (isWord_toString _).words]
      simp only [ofWords?, byte?_toString, Option.map_some]
  | jumpShortNZ l =>
      have hwords : words (jumpShortNZ l).text.toList = "jr" :: "nz," :: words l.toList := by
        rw [text, String.toList_append]
        rfl
      rw [hwords, IsWord.words h]
      simp only [ofWords?]
  | jumpNZ l =>
      have hwords : words (jumpNZ l).text.toList = "jp" :: "nz," :: words l.toList := by
        rw [text, String.toList_append]
        rfl
      rw [hwords, IsWord.words h]
      simp only [ofWords?]
  | call l =>
      have hwords : words (call l).text.toList = "call" :: words l.toList := by
        rw [text, String.toList_append]
        rfl
      rw [hwords, IsWord.words h]
      simp only [ofWords?]
  | _ => rfl

theorem Instr.newline_notMem_text (i : Instr) (h : i.Legible) : '\n' ∉ i.text.toList := by
  have hword {s : String} (hs : IsWord s) : '\n' ∉ s.toList := fun hmem => (hs _ hmem).2 rfl
  cases i <;>
    simp only [text, String.toList_append, List.mem_append, not_or]
  case loadA n => exact ⟨by decide, hword (isWord_toString _)⟩
  case fetchA d => exact ⟨by decide, hword (isWord_indexed d)⟩
  case storeA d => exact ⟨⟨by decide, hword (isWord_indexed d)⟩, by decide⟩
  case compare n => exact ⟨by decide, hword (isWord_toString _)⟩
  case jumpShortNZ l => exact ⟨by decide, hword h⟩
  case jumpNZ l => exact ⟨by decide, hword h⟩
  case call l => exact ⟨by decide, hword h⟩
  all_goals decide

/-! ### Lines -/

theorem Directive.ofText?_text (d : Directive) : ofText? d.text.toList = some d := by
  cases d with
  | device => rfl
  | origin => rfl
  | snapshot name =>
      have htext : (snapshot name).text.toList =
          "SAVESNA \"".toList ++ (name.toList ++ ".sna\", start".toList) := by
        rw [text, String.toList_append, String.toList_append, List.append_assoc]
      have hrest := List.isPrefixOf?_eq_some_iff_append_eq.mpr htext.symm
      have hname := List.isSuffixOf?_eq_some_iff_append_eq.mpr
        (Eq.refl (name.toList ++ ".sna\", start".toList))
      have hdevice : (snapshot name).text.toList ≠ "DEVICE ZXSPECTRUM48".toList := by
        rw [htext]
        intro heq
        cases congrArg List.head? heq
      have horigin : (snapshot name).text.toList ≠ "org $8000".toList := by
        rw [htext]
        intro heq
        cases congrArg List.head? heq
      rw [ofText?, if_neg hdevice, if_neg horigin, hrest]
      show (do
        let name ← ".sna\", start".toList.isSuffixOf? (name.toList ++ ".sna\", start".toList)
        return snapshot (String.ofList name)) = _
      rw [hname]
      show some (snapshot (String.ofList name.toList)) = _
      rw [String.ofList_toList]

/-- No instruction begins like a directive. -/
theorem Directive.ofText?_instr (i : Instr) : ofText? i.text.toList = none := by
  have hhead {c : Char} {s : List Char} (hD : c ≠ 'D') (ho : c ≠ 'o') (hS : c ≠ 'S') :
      ofText? (c :: s) = none := by
    have hcode : "SAVESNA \"".toList.isPrefixOf? (c :: s) = none := by
      show (if 'S' == c then _ else none) = none
      rw [if_neg (by simpa using hS.symm)]
    have hdevice : c :: s ≠ "DEVICE ZXSPECTRUM48".toList := fun heq => hD (List.cons.inj heq).1
    have horigin : c :: s ≠ "org $8000".toList := fun heq => ho (List.cons.inj heq).1
    rw [ofText?, if_neg hdevice, if_neg horigin, hcode]
    rfl
  cases i <;> simp only [Instr.text, String.toList_append] <;>
    exact hhead (by decide) (by decide) (by decide)

namespace Line

def body : Line → List Char
  | blank => []
  | label name => name.toList ++ [':']
  | instr i => "    ".toList ++ i.text.toList
  | directive d => "    ".toList ++ d.text.toList
  | verbatim t => "    ".toList ++ t.toList

theorem toList_text (l : Line) : l.text.toList = l.body ++ ['\n'] := by
  cases l with
  | blank => rfl
  | _ => simp [text, body, indentation, String.toList_append]

/-- The names in the line are of the kind that can be read. -/
def Legible : Line → Prop
  | label l => IsWord l
  | instr i => i.Legible
  | directive (.snapshot name) => '\n' ∉ name.toList
  | directive _ | blank => True
  | verbatim _ => False

theorem ofText?_instr (i : Instr) :
    ofText? (body (.instr i)) = (Instr.ofWords? (words i.text.toList)).map instr := by
  have hcode := List.isPrefixOf?_eq_some_iff_append_eq.mpr
    (Eq.refl ("    ".toList ++ i.text.toList))
  rw [ofText?, body, if_neg (by simp), hcode]
  simp only [Directive.ofText?_instr]

theorem ofText?_body {l : Line} (h : l.Legible) : ofText? l.body = some l := by
  cases l with
  | blank => rfl
  | label name =>
      have hname : IsWord name := h
      have hempty : name.toList ++ [':'] ≠ [] := by simp
      have hmargin : "    ".toList.isPrefixOf? (name.toList ++ [':']) = none := by
        cases hlist : name.toList with
        | nil => rfl
        | cons c s =>
            have hc := (hname c (by rw [hlist]; exact List.mem_cons_self ..)).1
            show (if ' ' == c then _ else none) = none
            rw [if_neg (by simpa using hc.symm)]
      rw [ofText?, body, if_neg hempty, hmargin]
      simp only [List.getLast?_concat, if_true, List.dropLast_concat, String.ofList_toList]
  | instr i => rw [ofText?_instr, i.ofWords?_text h, Option.map_some]
  | directive d =>
      have hcode := List.isPrefixOf?_eq_some_iff_append_eq.mpr
        (Eq.refl ("    ".toList ++ d.text.toList))
      rw [ofText?, body, if_neg (by simp), hcode]
      simp only [d.ofText?_text]
  | verbatim t => exact h.elim

theorem newline_notMem_body {l : Line} (h : l.Legible) : '\n' ∉ l.body := by
  cases l with
  | blank => exact List.not_mem_nil
  | label name =>
      intro hmem
      rcases List.mem_append.mp hmem with hmem | hmem
      · exact (h _ hmem).2 rfl
      · exact absurd hmem (by decide)
  | instr i =>
      intro hmem
      rcases List.mem_append.mp hmem with hmem | hmem
      · exact absurd hmem (by decide)
      · exact i.newline_notMem_text h hmem
  | directive d =>
      intro hmem
      rcases List.mem_append.mp hmem with hmem | hmem
      · exact absurd hmem (by decide)
      · cases d with
        | device => exact absurd hmem (by decide)
        | origin => exact absurd hmem (by decide)
        | snapshot name =>
            simp only [Directive.text, String.toList_append, List.mem_append] at hmem
            rcases hmem with (hmem | hmem) | hmem
            · exact absurd hmem (by decide)
            · exact h hmem
            · exact absurd hmem (by decide)
  | verbatim t => exact h.elim

end Line

/-- A text is divided into the lines that it was made of. -/
theorem split_join {lines : List Line} (h : ∀ l ∈ lines, '\n' ∉ l.body) :
    Text.split '\n' (Line.join lines).toList = lines.map Line.body ++ [[]] := by
  rw [Line.join, String.toList_join]
  induction lines with
  | nil => rfl
  | cons l lines ih =>
      rw [List.map_cons, List.flatMap_cons, Line.toList_text, List.append_assoc,
        List.singleton_append, Text.split_append (h l (List.mem_cons_self ..)),
        ih fun l hl => h l (List.mem_cons_of_mem _ hl)]
      rfl

/-- Reading is the inverse of writing. -/
theorem lines?_join {lines : List Line} (h : ∀ l ∈ lines, l.Legible) :
    lines? (Line.join lines) = some lines := by
  have hsplit := split_join fun l hl => Line.newline_notMem_body (h l hl)
  have hread : (lines.map Line.body).mapM Line.ofText? = some lines := by
    clear hsplit
    induction lines with
    | nil => rfl
    | cons l lines ih =>
        rw [List.map_cons, List.mapM_cons, Line.ofText?_body (h l (List.mem_cons_self ..)),
          ih fun l hl => h l (List.mem_cons_of_mem _ hl)]
        rfl
  simp only [lines?, hsplit, List.getLast?_concat, if_true, List.dropLast_concat, hread]

end Octet.Z80
