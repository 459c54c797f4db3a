import Octet.Proofs.Grammar.Stopping
import Octet.Proofs.Lowering.Limits
import Octet.Proofs.Token.Layout
import Octet.Proofs.Typing.Order

/-!
Where errors are. Scanning goes along a line over characters of one byte each,
so that every position it comes to, be it of a token or of an error, lies in a
line of the text or directly behind it. Nothing that fails later has positions
of its own: reading blames a token, checking blames positions that the program
has from its tokens, and making code blames a function.
-/

namespace Octet

/-- The position lies in the line of a text: its column is that of a byte of the
line, or the one behind the last, and in front of it all bytes are characters. -/
structure Source.Located (source : String) (p : Position) (line : String) : Prop where
  found : lineAt? source p.line = some line
  pos : 1 ≤ p.column
  inside : p.column ≤ (bytes line).length + 1
  plain : ∀ b ∈ (bytes line).take (p.column - 1), b.toNat < 128

namespace Token

/-! ### Along a line -/

/-- Scanning a line from a position comes to another one over characters of one
byte. -/
def Reaches (p : Position) (line : List Char) (q : Position) : Prop :=
  ∃ front rest, line = front ++ rest ∧ (∀ c ∈ front, c.toNat < 128) ∧ q = p.right front.length

theorem Reaches.refl (p : Position) (line : List Char) : Reaches p line p :=
  ⟨[], line, rfl, by simp, rfl⟩

theorem Reaches.over {p q : Position} {w rest : List Char} (hw : ∀ c ∈ w, IsPlain c)
    (h : Reaches (p.right w.length) rest q) : Reaches p (w ++ rest) q := by
  obtain ⟨front, behind, rfl, hfront, rfl⟩ := h
  refine ⟨w ++ front, behind, (List.append_assoc ..).symm, fun c hc => ?_, ?_⟩
  · exact (List.mem_append.mp hc).elim (fun hc => (hw c hc).1) (hfront c)
  · rw [right_right, List.length_append]

theorem ScansLine.reaches {p : Position} {line : List Char} {ts : List Token}
    (h : ScansLine p line ts) : ∀ t ∈ ts, Reaches p line t.position := by
  induction h with
  | nil => simp
  | space _ ih => exact fun t ht => .over (List.forall_mem_singleton.mpr isPlain_space) (ih t ht)
  | lexeme hlexeme _ _ ih =>
      intro t ht
      rcases List.mem_cons.mp ht with rfl | ht
      · exact .refl _ _
      · exact .over hlexeme.isPlain (ih t ht)

theorem ScansLine.reaches_end {p : Position} {line : List Char} {ts : List Token}
    (h : ScansLine p line ts) : Reaches p line (p.right (Source.byteLength line)) :=
  ⟨line, [], (List.append_nil _).symm, fun c hc => (h.isPlain c hc).1,
    by rw [byteLength_plain h.isPlain]⟩

theorem reaches_of_scanLine {p : Position} {line : List Char} {e : ScanError}
    (h : scanLine p line = .error e) : Reaches p line e.position := by
  fun_induction scanLine p line with
  | case1 p => cases h
  | case2 p cs ih => exact .over (List.forall_mem_singleton.mpr isPlain_space) (ih h)
  | case3 p c cs hc hnone =>
      cases h
      exact .refl _ _
  | case4 p c cs hc k tail hsome ih =>
      obtain ⟨rest, rfl, hlexeme, -⟩ := lexeme_of_lexeme? hsome
      rw [List.drop_left] at ih h
      rcases Result.bind_error.mp h with h | ⟨ts, -, h⟩
      · rw [Nat.add_comm] at ih h
        exact .over hlexeme.isPlain (ih h)
      · cases h

/-! ### Through the lines -/

/-- The position is one that scanning comes to in one of the lines. -/
def Inside (lines : List (List Char)) (p : Position) : Prop :=
  0 < p.line ∧ ∃ line, lines[p.line - 1]? = some line ∧ Reaches ⟨p.line, 1⟩ line p

variable {lines more : List (List Char)} {line : List Char} {n : Nat}

theorem Reaches.inside {q : Position} (h : Reaches ⟨n, 1⟩ line q) (front : List (List Char))
    (hlines : lines = front ++ line :: more) (hn : n = front.length + 1) : Inside lines q := by
  have hline : q.line = n := by
    obtain ⟨_, _, -, -, rfl⟩ := h
    rfl
  refine ⟨by omega, line, ?_, hline ▸ h⟩
  rw [hline, hn, hlines]
  simp

theorem inside_steps {d deeper : Nat} {front : List (List Char)}
    (hlines : lines = front ++ line :: more) (hn : n = front.length + 1) {t : Token}
    (ht : t ∈ steps d deeper n) : Inside lines t.position := by
  obtain ⟨k, m, -, hsteps⟩ := steps_eq_replicate d deeper n
  rw [hsteps] at ht
  rw [List.eq_of_mem_replicate ht]
  exact (Reaches.refl _ _).inside front hlines hn

/-- The end of the line in front of the rows is handed on from row to row. -/
theorem Rows.inside {d : Nat} {p : Position} {ts : List Token} (h : Rows d n p more ts)
    (front : List (List Char)) (hlines : lines = front ++ more) (hn : n = front.length + 1)
    (hp : Inside lines p) : ∀ t ∈ ts, Inside lines t.position := by
  induction h generalizing front with
  | done => simpa [textEnd] using hp
  | @blank d n p line more ts hblank _ _ ih =>
      have hend := (scansLine_blank (p := ⟨n, 1⟩) hblank).reaches_end.inside front hlines hn
      exact ih (front ++ [line]) (by simp [hlines]) (by simp [hn]) hend
  | @last d n p line hblank =>
      have hend := (scansLine_blank (p := ⟨n, 1⟩) hblank).reaches_end.inside front hlines hn
      simp only [List.forall_mem_cons, List.forall_mem_append]
      exact ⟨hp, fun t ht => inside_steps hlines hn ht, hend, by simp⟩
  | @text d deeper n p line more lexemes ts _ hlexemes _ _ ih =>
      have hend := hlexemes.reaches_end.inside front hlines hn
      simp only [List.forall_mem_cons, List.forall_mem_append]
      refine ⟨hp, ⟨fun t ht => inside_steps hlines hn ht, fun t ht => ?_⟩, ?_⟩
      · exact (hlexemes.reaches t ht).inside front hlines hn
      · exact ih (front ++ [line]) (by simp [hlines]) (by simp [hn]) hend

theorem inside_of_scan {source : String} {tokens : List Token} (h : scan source = .ok tokens) :
    ∀ t ∈ tokens, Inside (Source.lines source.toList) t.position := by
  obtain ⟨first, more, lexemes, ts, hlines, hlexemes, hrows, rfl⟩ := scan_ok.mp h
  have hfirst {q : Position} (hq : Reaches Position.start first q) :
      Inside (Source.lines source.toList) q := hq.inside [] hlines rfl
  refine List.forall_mem_append.mpr ⟨fun t ht => hfirst (hlexemes.reaches t ht), ?_⟩
  exact hrows.inside [first] hlines rfl (hfirst hlexemes.reaches_end)

theorem position_of_layout {d : Nat} {isLast : Bool} {e : ScanError}
    (h : layout d n line isLast = .error e) : e.position = ⟨n, 1⟩ := by
  simp only [layout] at h
  split at h
  · split at h <;> cases h
  · split at h
    · cases h
      rfl
    · cases h

theorem inside_of_scanLines {d : Nat} {p : Position} {e : ScanError}
    (h : scanLines d n p more = .error e) (front : List (List Char))
    (hlines : lines = front ++ more) (hn : n = front.length + 1) : Inside lines e.position := by
  induction more generalizing d n p front with
  | nil => cases h
  | cons line more ih =>
      rw [scanLines] at h
      rcases Result.bind_error.mp h with hlayout | ⟨⟨steps, deeper⟩, -, h⟩
      · rw [position_of_layout hlayout]
        exact (Reaches.refl _ _).inside front hlines hn
      rcases Result.bind_error.mp h with hlexemes | ⟨lexemes, -, h⟩
      · exact (reaches_of_scanLine hlexemes).inside front hlines hn
      rcases Result.bind_error.mp h with hrest | ⟨rest, -, h⟩
      · exact ih hrest (front ++ [line]) (by simp [hlines]) (by simp [hn])
      · cases h

theorem inside_of_scan_error {source : String} {e : ScanError} (h : scan source = .error e) :
    Inside (Source.lines source.toList) e.position := by
  obtain ⟨first, more, hlines⟩ :=
    List.exists_cons_of_ne_nil (Text.split_ne_nil '\n' source.toList)
  change Source.lines source.toList = first :: more at hlines
  simp only [scan, hlines] at h
  rcases Result.bind_error.mp h with hlexemes | ⟨lexemes, -, h⟩
  · exact (reaches_of_scanLine hlexemes).inside [] hlines rfl
  rcases Result.bind_error.mp h with hrest | ⟨rest, -, h⟩
  · exact inside_of_scanLines hrest [first] hlines rfl
  · cases h

end Token

namespace Source

theorem bytes_append (us cs : List Char) :
    bytes (String.ofList (us ++ cs)) = bytes (String.ofList us) ++ bytes (String.ofList cs) := by
  simp [bytes, String.ofList_append]

/-- What scanning comes to lies in the text. -/
theorem exists_located {source : String} {p : Position}
    (h : Token.Inside (lines source.toList) p) : ∃ line, Located source p line := by
  obtain ⟨hpos, _, hline, front, rest, rfl, hfront, hp⟩ := h
  have hcolumn : p.column = 1 + front.length := congrArg Position.column hp
  have hbytes : bytes (String.ofList (front ++ rest)) =
      front.map Char.toUInt8 ++ bytes (String.ofList rest) := by
    rw [bytes_append, Token.bytes_ofList hfront]
  refine ⟨_, Token.lineAt?_eq_some hpos hline, ?_, ?_, ?_⟩
  · omega
  · rw [hbytes, List.length_append, List.length_map]
    omega
  · rw [hbytes, hcolumn, Nat.add_sub_cancel_left, List.take_left' (List.length_map ..)]
    intro b hb
    obtain ⟨c, hc, rfl⟩ := List.mem_map.mp hb
    rw [Token.toNat_toUInt8 (hfront c hc)]
    exact hfront c hc

end Source

/-! ### Stages -/

namespace Program

theorem exists_token_of_mem_positions {source : String} {tokens : List Token} {p : Program}
    (hscan : Token.scan source = .ok tokens) (hread : ofTokens tokens = .ok p) {q : Position}
    (hq : q ∈ p.positions) : ∃ t ∈ tokens, t.position = q := by
  have hplace := (positions_sublist (ofTokens_derives hscan hread)).subset hq
  obtain ⟨t, ht, rfl⟩ := List.mem_map.mp hplace
  exact ⟨t, List.mem_of_mem_filter ht, rfl⟩

theorem position_mem_positions {p : Program} {f : Function} (hf : f ∈ p.functions) :
    f.position ∈ p.positions :=
  List.mem_flatMap.mpr ⟨f, hf, f.position_mem_positions⟩

/-- A checked program that has no code is wrong at one of its functions. -/
theorem position_of_assembly_error {p : Program} (htyped : p.WellTyped)
    {snapshot : Option String} {e : CodegenError} (h : p.assembly snapshot = .error e) :
    e.position ∈ p.positions := by
  have houtcome := Result.map_error.mp (Result.map_error.mp h)
  rcases (lower_ends htyped snapshot).error e houtcome with
    ⟨_, ⟨f, hf, -, -, rfl⟩, rfl⟩ | ⟨-, f, ⟨before, behind, hfs, -, -⟩, rfl⟩
  · exact position_mem_positions hf
  · exact position_mem_positions (by simp [hfs])

end Program

/-- The positions of an error that compiling ends in. There are some, and scanning
comes to all of them. -/
theorem inside_of_compile_error {source : String} {snapshot : Option String} {e : CompileError}
    (h : compile source snapshot = .error e) :
    e.positions ≠ [] ∧ ∀ p ∈ e.positions, Token.Inside (Source.lines source.toList) p := by
  rcases Result.bind_error.mp h with hsource | ⟨p, hsource, h⟩
  · rcases Result.bind_error.mp hsource with hscan | ⟨tokens, hscan, hread⟩
    · obtain ⟨e, herror, rfl⟩ := Result.mapError_error.mp hscan
      simpa [CompileError.positions] using Token.inside_of_scan_error herror
    · obtain ⟨e, herror, rfl⟩ := Result.mapError_error.mp hread
      have htokens := Result.mapError_ok.mp hscan
      obtain ⟨before, q, rfl⟩ := Token.exists_textEnd_of_scan htokens
      obtain ⟨t, ht, hposition⟩ := Program.ofTokens_error herror
      rw [Grammar.withEnd, List.getLast?_concat] at ht
      simpa [CompileError.positions, ← hposition] using Token.inside_of_scan htokens t ht
  · obtain ⟨tokens, hscan, hread⟩ := Program.ofSource_ok.mp hsource
    have hinside : ∀ q ∈ p.positions, Token.Inside (Source.lines source.toList) q := by
      intro q hq
      obtain ⟨t, ht, rfl⟩ := Program.exists_token_of_mem_positions hscan hread hq
      exact Token.inside_of_scan hscan t ht
    rcases Result.bind_error.mp h with hcheck | ⟨_, hcheck, hassembly⟩
    · obtain ⟨e, herror, rfl⟩ := Result.mapError_error.mp hcheck
      have hreports := Program.typeCheck_reports herror
      refine ⟨by simpa [CompileError.positions] using hreports.nonempty, fun q hq => ?_⟩
      obtain ⟨f, hf, hq⟩ := List.mem_flatMap.mp (hreports.sublist.subset hq)
      exact hinside q (List.mem_flatMap.mpr ⟨f, hf, Function.mem_positions_of_mem_cons hq⟩)
    · obtain ⟨e, herror, rfl⟩ := Result.mapError_error.mp hassembly
      have htyped := (Program.ofTokens_shaped hread).typeCheck_iff.mp
        (Result.mapError_ok.mp hcheck)
      simpa [CompileError.positions] using
        hinside _ (Program.position_of_assembly_error htyped herror)

end Octet
