import Octet.Proofs.Token.Neighbours

/-!
Where the lexemes of a text stand. The bytes of a text are laid out in lines,
and every byte has a position, a line and a column. Each lexeme covers the bytes
from its position on that its value has; no two lexemes cover the same byte, and
the bytes that none covers are spaces and line ends. No lexeme that starts where
another one starts is longer.
-/

namespace Octet

def Position.past (p : Position) (b : UInt8) : Position :=
  if b = 10 then ⟨p.line + 1, 1⟩ else p.right 1

namespace Source

def bytes (source : String) : List UInt8 := source.toUTF8.data.toList

/-- The position of the byte with the index, counted from zero. -/
def positionAt (bs : List UInt8) (i : Nat) : Position :=
  (bs.take i).foldl Position.past Position.start

end Source

namespace Token

/-! ### Characters of one byte -/

/-- The character is one byte and does not end a line. -/
def IsPlain (c : Char) : Prop := c.toNat < 128 ∧ c ≠ '\n'

theorem utf8Size_eq_one {c : Char} (h : c.toNat < 128) : c.utf8Size = 1 := by
  rw [Char.utf8Size_eq_one_iff, UInt32.le_iff_toNat_le]
  exact Nat.le_of_lt_succ h

theorem bytes_ofList {cs : List Char} (h : ∀ c ∈ cs, c.toNat < 128) :
    Source.bytes (String.ofList cs) = cs.map Char.toUInt8 := by
  simp only [Source.bytes, String.toUTF8_eq_toByteArray, String.toByteArray_ofList,
    List.utf8Encode, List.data_toByteArray]
  induction cs with
  | nil => rfl
  | cons c cs ih =>
      rw [List.flatMap_cons, String.utf8EncodeChar_eq_singleton (utf8Size_eq_one (h c (by simp)))]
      simpa using ih fun d hd => h d (by simp [hd])

theorem toNat_toUInt8 {c : Char} (h : c.toNat < 128) : c.toUInt8.toNat = c.toNat := by
  change c.toNat % 256 = c.toNat
  omega

theorem ofUInt8_toUInt8 {c : Char} (h : c.toNat < 128) : Char.ofUInt8 c.toUInt8 = c := by
  apply Char.toNat_inj.mp
  change c.toUInt8.toUInt32.toNat = c.toNat
  rw [UInt8.toNat_toUInt32, toNat_toUInt8 h]

theorem map_ofUInt8 {cs : List Char} (h : ∀ c ∈ cs, c.toNat < 128) :
    (cs.map Char.toUInt8).map Char.ofUInt8 = cs := by
  rw [List.map_map]
  exact (List.map_congr_left fun c hc => ofUInt8_toUInt8 (h c hc)).trans (List.map_id cs)

theorem past_plain {c : Char} (h : IsPlain c) (p : Position) :
    p.past c.toUInt8 = p.right 1 := by
  apply if_neg
  intro hc
  have hcode : c.toUInt8.toNat = '\n'.toNat := by rw [hc]; rfl
  rw [toNat_toUInt8 h.1] at hcode
  exact h.2 (Char.toNat_inj.mp hcode)

theorem foldl_past_plain {cs : List Char} (h : ∀ c ∈ cs, IsPlain c) (p : Position) :
    (cs.map Char.toUInt8).foldl Position.past p = p.right cs.length := by
  induction cs generalizing p with
  | nil => rfl
  | cons c cs ih =>
      rw [List.map_cons, List.foldl_cons, past_plain (h c (by simp)),
        ih fun d hd => h d (by simp [hd])]
      simp [Position.right, Nat.add_assoc, Nat.add_comm 1]

theorem isPlain_of_continuesWord {c : Char} (h : continuesWord c = true) : IsPlain c := by
  constructor
  · simp only [continuesWord, Char.isAlphanum, Bool.or_eq_true, beq_iff_eq] at h
    rcases h with (h | h) | rfl
    · have hletter := toNat_of_isAlpha h
      omega
    · have hdigit := toNat_of_isDigit h
      omega
    · decide
  · rintro rfl
    simp [continuesWord] at h

theorem continuesWord_of_isWord {cs : List Char} (h : isWord cs = true) :
    ∀ c ∈ cs, continuesWord c = true := by
  cases cs with
  | nil => simp
  | cons c tail =>
      simp only [isWord, startsWord, Bool.and_eq_true, List.all_eq_true] at h
      intro d hd
      rcases List.mem_cons.mp hd with rfl | hd
      · simp only [continuesWord, Char.isAlphanum, Bool.or_eq_true] at h ⊢
        exact h.1.imp_left .inl
      · exact h.2 d hd

theorem isPlain_of_isWord {cs : List Char} (h : isWord cs = true) : ∀ c ∈ cs, IsPlain c :=
  fun c hc => isPlain_of_continuesWord (continuesWord_of_isWord h c hc)

theorem Lexeme.isPlain {k : Kind} {cs : List Char} (h : Lexeme k cs) : ∀ c ∈ cs, IsPlain c := by
  cases h with
  | sign hk =>
      have hall : (Kind.signs.all fun k => k.spelling.toList.all fun c =>
          c.toNat < 128 && c != '\n') = true := rfl
      intro c hc
      have hplain := List.all_eq_true.mp (List.all_eq_true.mp hall k hk) c hc
      simpa [IsPlain] using hplain
  | number _ hdigits =>
      intro c hc
      apply isPlain_of_continuesWord
      simp [continuesWord, Char.isAlphanum, hdigits c hc]
  | keyword hk => exact isPlain_of_isWord (isWord_of_reserved hk)
  | identifier h _ => exact isPlain_of_isWord h

theorem isPlain_space : IsPlain ' ' := ⟨by decide, by decide⟩

theorem ScansLine.isPlain {p : Position} {line : List Char} {ts : List Token}
    (h : ScansLine p line ts) : ∀ c ∈ line, IsPlain c := by
  induction h with
  | nil => simp
  | space _ ih => exact List.forall_mem_cons.mpr ⟨isPlain_space, ih⟩
  | lexeme hlexeme _ _ ih => exact List.forall_mem_append.mpr ⟨hlexeme.isPlain, ih⟩

/-! ### The text as a row of lexemes, spaces and line ends -/

/-- The characters between two positions, and the lexemes that they spell. -/
inductive Tiling : Position → List Char → List Token → Position → Prop where
  | nil {p : Position} : Tiling p [] [] p
  | space {p q : Position} {cs : List Char} {ts : List Token} : Tiling (p.right 1) cs ts q →
      Tiling p (' ' :: cs) ts q
  | newline {p q : Position} {cs : List Char} {ts : List Token} : Tiling ⟨p.line + 1, 1⟩ cs ts q →
      Tiling p ('\n' :: cs) ts q
  | lexeme {p q : Position} {k : Kind} {w rest : List Char} {ts : List Token} : Lexeme k w →
      k.Ends rest → Tiling (p.right w.length) rest ts q →
      Tiling p (w ++ rest) (⟨k, String.ofList w, p⟩ :: ts) q

theorem Kind.Ends.append {k : Kind} {rest : List Char} (h : k.Ends rest)
    {behind : List Char} (hbehind : ∀ c ∈ behind.head?, c = '\n') : k.Ends (rest ++ behind) := by
  cases rest with
  | cons c rest => exact h
  | nil =>
      intro c hc
      obtain rfl := hbehind c hc
      cases k <;> rfl

theorem right_right (p : Position) (m n : Nat) : (p.right m).right n = p.right (m + n) := by
  simp [Position.right, Nat.add_assoc]

theorem byteLength_append (us cs : List Char) :
    Source.byteLength (us ++ cs) = Source.byteLength us + Source.byteLength cs := by
  induction us with
  | nil => simp [Source.byteLength]
  | cons c us ih =>
      change c.utf8Size + Source.byteLength (us ++ cs) =
        c.utf8Size + Source.byteLength us + Source.byteLength cs
      rw [ih, Nat.add_assoc]

theorem byteLength_plain {cs : List Char} (h : ∀ c ∈ cs, IsPlain c) :
    Source.byteLength cs = cs.length := by
  induction cs with
  | nil => rfl
  | cons c cs ih =>
      change c.utf8Size + Source.byteLength cs = cs.length + 1
      rw [utf8Size_eq_one (h c (by simp)).1, ih fun d hd => h d (by simp [hd]), Nat.add_comm]

/-- A line is a part of the text if its end follows, or the end of the text. -/
theorem ScansLine.tiling {p q : Position} {line behind : List Char} {ts us : List Token}
    (h : ScansLine p line ts) (hbehind : ∀ c ∈ behind.head?, c = '\n')
    (hus : Tiling (p.right (Source.byteLength line)) behind us q) :
    Tiling p (line ++ behind) (ts ++ us) q := by
  induction h with
  | nil => exact hus
  | space _ ih =>
      apply Tiling.space
      apply ih
      rw [right_right]
      exact hus
  | lexeme hlexeme hends _ ih =>
      rw [byteLength_append, byteLength_plain hlexeme.isPlain, ← right_right] at hus
      rw [List.append_assoc]
      exact .lexeme hlexeme (hends.append hbehind) (ih hus)

theorem head?_flatMap_newline {more : List (List Char)} {c : Char}
    (h : c ∈ (more.flatMap ('\n' :: ·)).head?) : c = '\n' := by
  cases more with
  | nil => cases h
  | cons line more =>
      cases h
      rfl

theorem filter_isLexeme_steps (d deeper n : Nat) :
    (steps d deeper n).filter (·.kind.isLexeme) = [] := by
  rw [List.filter_eq_nil_iff]
  intro t ht
  rw [isLexeme_of_mem_steps ht]
  exact Bool.false_ne_true

/-- The rows of some lines, laid out as the text that the lines make. -/
theorem Rows.tiling {d n : Nat} {p : Position} {more : List (List Char)} {ts : List Token}
    (h : Rows d n p more ts) (hn : n = p.line + 1) :
    Tiling p (more.flatMap ('\n' :: ·)) (ts.filter (·.kind.isLexeme)) (linesEnd n p more) := by
  induction h with
  | done => exact .nil
  | blank hblank _ _ ih =>
      subst hn
      apply Tiling.newline
      exact (scansLine_blank hblank).tiling (fun c hc => head?_flatMap_newline hc) (ih rfl)
  | @last d n p line hblank =>
      subst hn
      have hrow : (lineEnd p :: (steps d 0 (p.line + 1) ++
          [textEnd ⟨p.line + 1, 1 + Source.byteLength line⟩])).filter (·.kind.isLexeme) = [] := by
        rw [List.filter_cons_of_neg Bool.false_ne_true, List.filter_append, filter_isLexeme_steps]
        rfl
      rw [hrow]
      exact .newline ((scansLine_blank hblank).tiling (by simp) .nil)
  | @text d deeper n p line more lexemes ts _ hlexemes _ _ ih =>
      subst hn
      have hrow : (lineEnd p :: (steps d deeper (p.line + 1) ++ lexemes ++ ts)).filter
          (·.kind.isLexeme) = lexemes ++ ts.filter (·.kind.isLexeme) := by
        rw [List.filter_cons_of_neg Bool.false_ne_true, List.filter_append, List.filter_append,
          filter_isLexeme_steps, List.nil_append, List.filter_eq_self.mpr hlexemes.isLexeme]
      rw [hrow]
      exact .newline (hlexemes.tiling (fun c hc => head?_flatMap_newline hc) (ih rfl))

/-- A text is its lines, with an end between any two of them. -/
theorem eq_of_lines {cs first : List Char} {more : List (List Char)}
    (h : Source.lines cs = first :: more) : cs = first ++ more.flatMap ('\n' :: ·) := by
  induction cs generalizing first more with
  | nil =>
      cases h
      rfl
  | cons c cs ih =>
      obtain ⟨next, rest, hrest⟩ := List.exists_cons_of_ne_nil (Text.split_ne_nil '\n' cs)
      have hcs := ih hrest
      rw [Source.lines, Text.split] at h
      split at h
      · next hc =>
          cases h
          rw [hrest, hc, hcs]
          rfl
      · rw [hrest] at h
        cases h
        rw [hcs]
        rfl

theorem tiling_of_scan {source : String} {tokens : List Token} (h : scan source = .ok tokens) :
    ∃ q before, Tiling Position.start source.toList (tokens.filter (·.kind.isLexeme)) q ∧
      tokens = before ++ [textEnd q] := by
  obtain ⟨first, more, lexemes, ts, hlines, hlexemes, hrows, rfl⟩ := scan_ok.mp h
  obtain ⟨us, hus⟩ := hrows.exists_textEnd
  refine ⟨linesEnd 2 ⟨1, 1 + Source.byteLength first⟩ more, lexemes ++ us, ?_, by simp [hus]⟩
  rw [eq_of_lines hlines, List.filter_append, List.filter_eq_self.mpr hlexemes.isLexeme]
  exact hlexemes.tiling (fun c hc => head?_flatMap_newline hc) (hrows.tiling rfl)

/-! ### Spans -/

def Before (p q : Position) : Prop := p.line < q.line ∨ p.line = q.line ∧ p.column < q.column

theorem Before.trans {p q r : Position} (h : Before p q) (h' : Before q r) : Before p r := by
  unfold Before at *
  omega

theorem before_past (p : Position) (b : UInt8) : Before p (p.past b) := by
  unfold Position.past
  split
  · exact .inl (Nat.lt_succ_self p.line)
  · exact .inr ⟨rfl, Nat.lt_succ_self p.column⟩

theorem before_foldl_past {bs : List UInt8} (h : bs ≠ []) (p : Position) :
    Before p (bs.foldl Position.past p) := by
  induction bs generalizing p with
  | nil => exact absurd rfl h
  | cons b bs ih =>
      cases bs with
      | nil => exact before_past p b
      | cons c bs => exact (before_past p b).trans (ih (List.cons_ne_nil c bs) _)

theorem before_positionAt {bs : List UInt8} {i j : Nat} (hij : i < j) (hj : j ≤ bs.length) :
    Before (Source.positionAt bs i) (Source.positionAt bs j) := by
  have htake : bs.take j = bs.take i ++ (bs.drop i).take (j - i) := by
    rw [← List.take_add, Nat.add_sub_cancel' (Nat.le_of_lt hij)]
  rw [Source.positionAt, Source.positionAt, htake, List.foldl_append]
  apply before_foldl_past
  intro hnil
  have hlength := congrArg List.length hnil
  simp at hlength
  omega

/-- No two bytes have the same position. -/
theorem positionAt_inj {bs : List UInt8} {i j : Nat} (hi : i ≤ bs.length) (hj : j ≤ bs.length) :
    Source.positionAt bs i = Source.positionAt bs j ↔ i = j := by
  constructor
  · intro h
    rcases Nat.lt_trichotomy i j with hij | hij | hij
    · have := before_positionAt hij hj
      rw [h] at this
      unfold Before at this
      omega
    · exact hij
    · have := before_positionAt hij hi
      rw [h] at this
      unfold Before at this
      omega
  · rintro rfl
    rfl

/-- A lexeme covers the bytes from the first index up to the second. -/
structure Covers (bs : List UInt8) (t : Token) (s : Nat × Nat) : Prop where
  nonempty : s.1 < s.2
  within : s.2 ≤ bs.length
  /-- The first of the bytes, and no other byte, has the position. -/
  position : ∀ i ≤ bs.length, Source.positionAt bs i = t.position ↔ i = s.1
  value : Source.bytes t.value = (bs.drop s.1).take (s.2 - s.1)
  lexeme : Lexeme t.kind t.value.toList
  /-- The lexeme does not go on. -/
  maximal : ∀ b ∈ bs[s.2]?, t.kind.goesOn (Char.ofUInt8 b) = false
  /-- No lexeme with the same beginning is longer. -/
  longest : ∀ k w, Lexeme k w → Source.bytes (String.ofList w) <+: bs.drop s.1 →
    w.length ≤ s.2 - s.1
  /-- The keywords are the words that are reserved. -/
  keyword : ∀ k, (t.value, k) ∈ Kind.reservedWords ↔ t.kind = k ∧ k.isKeyword = true

/-- The lexemes cover the bytes from an index on, but for spaces and line ends. -/
structure Tiles (bs : List UInt8) (start : Nat) (ts : List Token) (spans : List (Nat × Nat)) :
    Prop where
  covers : List.Forall₂ (Covers bs) ts spans
  ordered : spans.Pairwise fun s u => s.2 ≤ u.1
  behind : ∀ s ∈ spans, start ≤ s.1
  outside : ∀ i b, start ≤ i → bs[i]? = some b → (∀ s ∈ spans, ¬ (s.1 ≤ i ∧ i < s.2)) →
    b = 32 ∨ b = 10

theorem Tiles.skip {bs : List UInt8} {start : Nat} {ts : List Token} {spans : List (Nat × Nat)}
    (h : Tiles bs (start + 1) ts spans) (hb : ∀ b ∈ bs[start]?, b = 32 ∨ b = 10) :
    Tiles bs start ts spans where
  covers := h.covers
  ordered := h.ordered
  behind s hs := Nat.le_of_succ_le (h.behind s hs)
  outside i b hi hbyte hout := by
    rcases Nat.eq_or_lt_of_le hi with rfl | hi
    · exact hb b hbyte
    · exact h.outside i b hi hbyte hout

theorem Tiles.cons {bs : List UInt8} {start stop : Nat} {t : Token} {ts : List Token}
    {spans : List (Nat × Nat)} (ht : Covers bs t (start, stop)) (h : Tiles bs stop ts spans) :
    Tiles bs start (t :: ts) ((start, stop) :: spans) where
  covers := .cons ht h.covers
  ordered := List.pairwise_cons.mpr ⟨h.behind, h.ordered⟩
  behind s hs := by
    rcases List.mem_cons.mp hs with rfl | hs
    · exact Nat.le_refl start
    · exact Nat.le_trans (Nat.le_of_lt ht.nonempty) (h.behind s hs)
  outside i b hi hbyte hout := by
    apply h.outside i b _ hbyte
    · intro s hs
      exact hout s (by simp [hs])
    · have := hout (start, stop) (by simp)
      simp only at this
      omega

theorem Tiling.toNat_lt {p q : Position} {cs : List Char} {ts : List Token}
    (h : Tiling p cs ts q) : ∀ c ∈ cs, c.toNat < 128 := by
  induction h with
  | nil => simp
  | space _ ih => simpa using ih
  | newline _ ih => simpa using ih
  | lexeme hlexeme _ _ ih =>
      intro c hc
      rcases List.mem_append.mp hc with hc | hc
      · exact (hlexeme.isPlain c hc).1
      · exact ih c hc

theorem covers_lexeme {front : List UInt8} {k : Kind} {w rest : List Char} (h : Lexeme k w)
    (hends : k.Ends rest) (hrest : ∀ c ∈ rest, c.toNat < 128) :
    Covers (front ++ (w ++ rest).map Char.toUInt8)
      ⟨k, String.ofList w, front.foldl Position.past Position.start⟩
      (front.length, front.length + w.length) := by
  have hw : ∀ c ∈ w, c.toNat < 128 := fun c hc => (h.isPlain c hc).1
  constructor
  case nonempty =>
    obtain ⟨c, tail, rfl, -⟩ := h.exists_cons
    simp
  case within => simp
  case position =>
    intro i hi
    have hstart : Source.positionAt (front ++ (w ++ rest).map Char.toUInt8) front.length =
        front.foldl Position.past Position.start := by
      rw [Source.positionAt, List.take_left]
    rw [← hstart]
    exact positionAt_inj hi (by simp)
  case value =>
    rw [bytes_ofList hw, List.drop_left, Nat.add_sub_cancel_left, List.map_append]
    exact (List.take_left' (by simp)).symm
  case lexeme => simpa using h
  case maximal =>
    intro b hb
    have hlength : front.length + w.length = (front ++ w.map Char.toUInt8).length := by simp
    rw [List.map_append, ← List.append_assoc, hlength, List.getElem?_append_right (Nat.le_refl _),
      Nat.sub_self, ← List.head?_eq_getElem?, List.head?_map] at hb
    obtain ⟨c, hc, rfl⟩ := Option.map_eq_some_iff.mp hb
    rw [ofUInt8_toUInt8 (hrest c (List.mem_of_mem_head? hc))]
    exact hends c hc
  case longest =>
    intro l v hv hpre
    have hall : ∀ c ∈ w ++ rest, c.toNat < 128 := by
      intro c hc
      rcases List.mem_append.mp hc with hc | hc
      · exact hw c hc
      · exact hrest c hc
    have hv' : ∀ c ∈ v, c.toNat < 128 := fun c hc => (hv.isPlain c hc).1
    rw [bytes_ofList hv', List.drop_left] at hpre
    -- Bytes below 128 are characters, so that the longest lexeme can be compared with.
    have hchars := hpre.map Char.ofUInt8
    rw [map_ofUInt8 hv', map_ofUInt8 hall] at hchars
    rw [Nat.add_sub_cancel_left]
    exact h.length_le hends hv hchars
  case keyword =>
    intro l
    exact Lexeme.reserved_iff (by simpa using h) l

theorem Tiling.tiles {p q : Position} {cs : List Char} {ts : List Token} (h : Tiling p cs ts q)
    (front : List UInt8) (hp : p = front.foldl Position.past Position.start) :
    ∃ spans, Tiles (front ++ cs.map Char.toUInt8) front.length ts spans ∧
      q = (front ++ cs.map Char.toUInt8).foldl Position.past Position.start := by
  -- In front are the bytes that are passed already, and the next span starts where they end.
  induction h generalizing front with
  | nil =>
      refine ⟨[], ⟨.nil, .nil, by simp, fun i b hi hb => ?_⟩, by simp [hp]⟩
      simp [List.getElem?_eq_none hi] at hb
  | space _ ih =>
      obtain ⟨spans, htiles, hq⟩ := ih (front ++ [32]) (by rw [hp, List.foldl_append]; rfl)
      rw [List.append_assoc] at htiles hq
      rw [List.length_append] at htiles
      exact ⟨spans, htiles.skip (by simp), hq⟩
  | newline _ ih =>
      obtain ⟨spans, htiles, hq⟩ := ih (front ++ [10]) (by rw [hp, List.foldl_append]; rfl)
      rw [List.append_assoc] at htiles hq
      rw [List.length_append] at htiles
      exact ⟨spans, htiles.skip (by simp), hq⟩
  | @lexeme p q k w rest ts hlexeme hends hrest ih =>
      have hp' : p.right w.length =
          (front ++ w.map Char.toUInt8).foldl Position.past Position.start := by
        rw [List.foldl_append, ← hp, foldl_past_plain hlexeme.isPlain]
      obtain ⟨spans, htiles, hq⟩ := ih _ hp'
      rw [List.append_assoc, ← List.map_append] at htiles hq
      refine ⟨(front.length, front.length + w.length) :: spans, ?_, hq⟩
      subst hp
      apply Tiles.cons (covers_lexeme hlexeme hends hrest.toNat_lt)
      simpa using htiles

/-- The lexemes of a text cover it, each with its own bytes and none longer than
they are, and behind the last byte stands the only end. -/
theorem scan_tiles {source : String} {tokens : List Token} (h : scan source = .ok tokens) :
    (∃ spans, Tiles (Source.bytes source) 0 (tokens.filter (·.kind.isLexeme)) spans) ∧
      ∃ before, tokens = before ++
          [textEnd (Source.positionAt (Source.bytes source) (Source.bytes source).length)] ∧
        ∀ t ∈ before, t.kind ≠ .eof := by
  obtain ⟨q, before, htiling, htokens⟩ := tiling_of_scan h
  have hbytes : Source.bytes source = source.toList.map Char.toUInt8 := by
    rw [← bytes_ofList htiling.toNat_lt, String.ofList_toList]
  obtain ⟨spans, htiles, hq⟩ := htiling.tiles [] rfl
  rw [List.nil_append, ← hbytes] at htiles hq
  refine ⟨⟨spans, htiles⟩, before, ?_, kind_ne_eof_of_scan (htokens ▸ h)⟩
  rw [Source.positionAt, List.take_length, ← hq, htokens]

/-- Signs that share a beginning, a keyword that is part of a longer word, and
spaces at the end of a line. -/
theorem scan_tiles_operators : ∃ tokens, scan "lets==-1  \n    ->=x" = .ok tokens ∧
    (∃ spans, Tiles (Source.bytes "lets==-1  \n    ->=x") 0
      (tokens.filter (·.kind.isLexeme)) spans) ∧
    ∃ before, tokens = before ++ [textEnd (Source.positionAt (Source.bytes "lets==-1  \n    ->=x")
        (Source.bytes "lets==-1  \n    ->=x").length)] ∧ ∀ t ∈ before, t.kind ≠ .eof := by
  have hscan : scan "lets==-1  \n    ->=x" = .ok
      [⟨.identifier, "lets", ⟨1, 1⟩⟩, ⟨.equal, "==", ⟨1, 5⟩⟩, ⟨.minus, "-", ⟨1, 7⟩⟩,
        ⟨.number, "1", ⟨1, 8⟩⟩, lineEnd ⟨1, 11⟩, layoutStep .indent 2, ⟨.arrow, "->", ⟨2, 5⟩⟩,
        ⟨.assign, "=", ⟨2, 7⟩⟩, ⟨.identifier, "x", ⟨2, 8⟩⟩, textEnd ⟨2, 9⟩] := by
    decide +kernel
  exact ⟨_, hscan, scan_tiles hscan⟩

end Token

end Octet
