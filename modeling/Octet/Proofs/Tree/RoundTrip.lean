import Octet.Proofs.Tree.Rendering

/-!
The text of a tree reads as the tree. The lines of a statement give rows of
tokens that derive it, and behind them the text goes on at the depth of the
statement: whatever is deeper ends there. A block is one step deeper than its
line, so that its rows begin with a step in, and the row behind them with a step
out.

With the lines of all functions put together the text of a program reads as the
program again, but for positions. Since only well-formed trees are read at all,
texts reach the well-formed trees and no others.
-/

namespace Octet

open Token Grammar

/-! ### Rows behind a line -/

/-- Behind a line of the depth the lines give the tokens. -/
def Below (d n : Nat) (lines : List (List Char)) (ts : List Token) : Prop :=
  ∀ p, Rows d n p lines (lineEnd p :: ts)

/-- Behind a line of the depth, or a deeper one, the lines go on at the depth. -/
def GoesOn (d n : Nat) (lines : List (List Char)) (ts : List Token) : Prop :=
  ∀ e, d ≤ e → Below e n lines (steps e d n ++ ts)

theorem steps_self (d n : Nat) : steps d d n = [] := by
  simp [steps]

theorem steps_in (d n : Nat) : steps d (d + 1) n = [layoutStep .indent n] := by
  simp [steps]

/-- One step more leads one step further out. -/
theorem steps_out {d e : Nat} (h : d + 1 ≤ e) (n : Nat) :
    steps e d n = steps e (d + 1) n ++ [layoutStep .dedent n] := by
  have hout : e - d = (e - (d + 1)) + 1 := by omega
  simp [steps, Nat.sub_eq_zero_of_le h, Nat.sub_eq_zero_of_le (Nat.le_of_succ_le h), hout,
    List.replicate_succ']

theorem GoesOn.below {d n : Nat} {lines : List (List Char)} {ts : List Token}
    (h : GoesOn d n lines ts) : Below d n lines ts := by
  have hbelow := h d (Nat.le_refl d)
  rwa [steps_self, List.nil_append] at hbelow

/-- Lines that go on at a depth end a block that is one step deeper. -/
theorem GoesOn.close {d n : Nat} {lines : List (List Char)} {ts : List Token}
    (h : GoesOn d n lines ts) : GoesOn (d + 1) n lines (layoutStep .dedent n :: ts) := by
  intro e he
  have hbelow := h e (Nat.le_of_succ_le he)
  rwa [steps_out he, List.append_assoc] at hbelow

/-- The empty line at the end of a text. -/
theorem goesOn_last (n : Nat) : GoesOn 0 n [[]] [textEnd ⟨n, 1⟩] :=
  fun _ _ _ => .last (by simp [Blank])

theorem leadingSpaces_indented {text : List Char} (h : Inked text) (d : Nat) :
    Source.leadingSpaces (indented d text) = indentWidth * d := by
  obtain ⟨c, cs, rfl, hc⟩ := h
  rw [Source.leadingSpaces, indented, List.takeWhile_append_of_pos (by simp)]
  simp [hc]

theorem scansLine_indented {text : List Char} {p : Position} {ts : List Token} {d : Nat}
    (h : ScansLine (p.right (indentWidth * d)) text ts) : ScansLine p (indented d text) ts := by
  unfold indented
  generalize indentWidth * d = m at h ⊢
  induction m generalizing p with
  | zero => exact h
  | succ m ih =>
      apply ScansLine.space
      apply ih
      rwa [right_right, Nat.add_comm]

/-- A line at a depth, with the steps in front of it that the line above asks
for. -/
theorem below_line {stop : Char → Bool} {text : List Char} {D : List Token → Prop} {d n : Nat}
    {more : List (List Char)} {ts : List Token} (hinked : Inked text) (h : Spells stop text D)
    (hmore : Below d (n + 1) more ts) : ∃ us nl, D us ∧ nl.kind = .newline ∧
      ∀ e, Below e n (indented d text :: more) (steps e d n ++ (us ++ nl :: ts)) := by
  obtain ⟨us, hus, hline⟩ := h.line (Position.right (indentWidth * d) ⟨n, 1⟩)
  have hne : us ≠ [] := by
    rintro rfl
    obtain ⟨c, cs, rfl, hc⟩ := hinked
    exact hc (hline.blank_of_nil c (by simp))
  refine ⟨us, lineEnd ⟨n, 1 + Source.byteLength (indented d text)⟩, hus, rfl, fun e p => ?_⟩
  rw [← List.append_assoc]
  exact .text (leadingSpaces_indented hinked d) (scansLine_indented hline) hne (hmore _)

/-! ### Statements -/

theorem inked_keyword {w : String} {k : Token.Kind} (h : (w, k) ∈ Token.Kind.reservedWords)
    (text : List Char) : Inked (w.toList ++ text) :=
  Inked.append (Lexeme.keyword h).exists_cons text

/-- A statement that is one line. -/
theorem below_stmt {stop : Char → Bool} {text : List Char} {s : Stmt} {d n : Nat}
    {more : List (List Char)} {ts : List Token} (hinked : Inked text)
    (h : Spells stop text (DerivesLine s)) (hmore : GoesOn d (n + 1) more ts) :
    ∃ us s', DerivesStmt us s' ∧ s'.bare = s.bare ∧
      ∀ e, Below e n ([indented d text] ++ more) (steps e d n ++ (us ++ ts)) := by
  obtain ⟨us, nl, hus, hnl, hbelow⟩ := below_line hinked h hmore.below
  obtain ⟨s', hs, hbare⟩ := hus nl hnl
  refine ⟨us ++ [nl], s', hs, hbare, fun e => ?_⟩
  rw [List.append_assoc]
  exact hbelow e

/-- The rows of statements one step deeper make a block. -/
theorem below_block {d n : Nat} {body : List Stmt} {lines : List (List Char)} {ts : List Token}
    {m : Nat} (h : ∃ us body', DerivesStmts us body' ∧ Stmt.bareAll body' = Stmt.bareAll body ∧
      Below d n lines (steps d (d + 1) n ++ (us ++ layoutStep .dedent m :: ts))) :
    ∃ us b, DerivesBlock us b ∧ Stmt.bareAll b.body = Stmt.bareAll body ∧
      Below d n lines (us ++ ts) := by
  obtain ⟨us, body', hbody, hbare, hbelow⟩ := h
  have hblock : DerivesBlock (layoutStep .indent n :: (us ++ [layoutStep .dedent m]))
      ⟨body', ⟨n, 1⟩⟩ := .indented rfl hbody rfl
  refine ⟨_, _, hblock, hbare, ?_⟩
  rw [steps_in] at hbelow
  simpa using hbelow

mutual

/-- The lines of a statement give rows that derive it, if the text goes on at
its depth. -/
theorem Stmt.rows : (s : Stmt) → ¬ s.IsBlock → s.WellFormed → ∀ {d n : Nat}
    {more : List (List Char)} {ts : List Token}, GoesOn d (n + (s.render d).length) more ts →
    ∃ us s', DerivesStmt us s' ∧ s'.bare = s.bare ∧
      ∀ e, Below e n (s.render d ++ more) (steps e d n ++ (us ++ ts))
  | .block _ _, hblock, _, _, _, _, _, _ => absurd trivial hblock
  | .ifThen condition (.block body q) p, _, h, d, n, more, ts, hmore => by
      obtain ⟨hcondition, -, hne, hbody⟩ := h
      have hcount : n + ((Stmt.ifThen condition (.block body q) p).render d).length =
          n + 1 + (Stmt.renderAll (d + 1) body).length := by
        simp only [Stmt.render, List.length_cons]
        omega
      rw [hcount] at hmore
      -- The text goes on at the depth of the line, which ends the block below it.
      obtain ⟨vs, body', hvs, hbare, hrows⟩ := Stmt.rowsAll body hbody hmore.close
      obtain ⟨bs, b, hb, hbbare, hbelow⟩ := below_block
        ⟨vs, body', hvs, hbare, hrows d fun hnil => absurd hnil hne⟩
      obtain ⟨us, nl, ⟨start, cs, colon, e, rfl, hstart, he, hebare, hcolon⟩, hnl, hlines⟩ :=
        below_line (inked_keyword (k := .kwIf) (by decide) _) (spells_if hcondition) hbelow
      refine ⟨_, _, .ifThen hstart he hcolon hnl hb, ?_, fun e => ?_⟩
      · simp only [Stmt.bare, Block.toStmt, hebare, hbbare]
      · rw [Stmt.render, Stmt.render]
        simpa only [List.cons_append, List.append_assoc, List.nil_append] using hlines e
  | .print value p, _, h, d, n, more, ts, hmore =>
      below_stmt (inked_keyword (k := .kwPrint) (by decide) _) (spells_print h p) hmore
  | .declare x type value p, _, h, d, n, more, ts, hmore =>
      below_stmt (inked_keyword (k := .kwLet) (by decide) _)
        (spells_declare h.1 h.2.1 h.2.2 p) hmore
  | .assign x value p, _, h, d, n, more, ts, hmore =>
      below_stmt (Inked.append (lexeme_identifier_iff.mpr h.1).exists_cons _)
        (spells_assign h.1 h.2 p) hmore
  | .ret value p, _, h, d, n, more, ts, hmore =>
      below_stmt (inked_keyword (k := .kwReturn) (by decide) _) (spells_ret h p) hmore
  | .evaluate value, _, h, d, n, more, ts, hmore =>
      below_stmt (value.inked h) (spells_evaluate h) hmore

theorem Stmt.rowsAll : (body : List Stmt) → Stmt.WellFormedAll body → ∀ {d n : Nat}
    {more : List (List Char)} {ts : List Token},
    GoesOn d (n + (Stmt.renderAll d body).length) more ts →
    ∃ us body', DerivesStmts us body' ∧ Stmt.bareAll body' = Stmt.bareAll body ∧
      ∀ e, (body = [] → d ≤ e) →
        Below e n (Stmt.renderAll d body ++ more) (steps e d n ++ (us ++ ts))
  | [], _, d, n, more, ts, hmore => ⟨[], [], .nil, rfl, fun e he => hmore e (he rfl)⟩
  | s :: body, h, d, n, more, ts, hmore => by
      obtain ⟨hblock, hs, hbody⟩ := h
      rw [Stmt.renderAll, List.length_append, ← Nat.add_assoc] at hmore
      -- The first statement is followed by the lines of the others.
      obtain ⟨vs, body', hvs, hbare, hrows⟩ := Stmt.rowsAll body hbody hmore
      obtain ⟨us, s', hus, hsbare, hlines⟩ := Stmt.rows s hblock hs fun e he => hrows e fun _ => he
      refine ⟨us ++ vs, s' :: body', .cons hus hvs, ?_, fun e _ => ?_⟩
      · rw [Stmt.bareAll, Stmt.bareAll, hsbare, hbare]
      · rw [Stmt.renderAll, List.append_assoc, List.append_assoc]
        exact hlines e

end

/-! ### Functions -/

theorem Function.inked_header (f : Function) : Inked f.header :=
  inked_keyword (k := .kwDef) (by decide) _

theorem Function.rows {f : Function} (h : f.WellFormed) {n : Nat} {more : List (List Char)}
    {ts : List Token} (hmore : GoesOn 0 (n + f.render.length) more ts) :
    ∃ us f', DerivesFunction us f' ∧ f'.bare = f.bare ∧
      ∀ e, Below e n (f.render ++ more) (steps e 0 n ++ (us ++ ts)) := by
  obtain ⟨hne, hbody⟩ := h.body
  have hcount : n + f.render.length = n + 1 + (Stmt.renderAll 1 f.body.body).length := by
    simp only [Function.render, List.length_cons]
    omega
  rw [hcount] at hmore
  obtain ⟨vs, body, hvs, hbare, hrows⟩ := Stmt.rowsAll f.body.body hbody hmore.close
  obtain ⟨bs, b, hb, hbbare, hbelow⟩ := below_block
    ⟨vs, body, hvs, hbare, hrows 0 fun hnil => absurd hnil hne⟩
  obtain ⟨us, nl, hus, hnl, hlines⟩ := below_line f.inked_header (spells_header h) hbelow
  obtain ⟨f', hf, hfbare⟩ := hus nl bs b hnl hb hbbare
  refine ⟨us ++ nl :: bs, f', hf, hfbare, fun e => ?_⟩
  rw [List.append_assoc]
  exact hlines e

theorem rows_functions {fs : List Function} (h : ∀ f ∈ fs, f.WellFormed) {n : Nat}
    {more : List (List Char)} {ts : List Token}
    (hmore : GoesOn 0 (n + (fs.flatMap Function.render).length) more ts) :
    ∃ us fs', DerivesFunctions us fs' ∧ fs'.map Function.bare = fs.map Function.bare ∧
      GoesOn 0 n (fs.flatMap Function.render ++ more) (us ++ ts) := by
  induction fs generalizing n with
  | nil => exact ⟨[], [], .nil, rfl, hmore⟩
  | cons f fs ih =>
      rw [List.flatMap_cons, List.length_append, ← Nat.add_assoc] at hmore
      obtain ⟨vs, fs', hvs, hbare, hrest⟩ := ih (fun g hg => h g (by simp [hg])) hmore
      obtain ⟨us, f', hus, hfbare, hlines⟩ := Function.rows (h f (by simp)) hrest
      refine ⟨us ++ vs, f' :: fs', .cons hus hvs, ?_, fun e _ => ?_⟩
      · rw [List.map_cons, List.map_cons, hfbare, hbare]
      · rw [List.flatMap_cons, List.append_assoc, List.append_assoc]
        exact hlines e

/-! ### Texts -/

theorem Token.ScansLine.notMem_newline {p : Position} {line : List Char} {ts : List Token}
    (h : ScansLine p line ts) : '\n' ∉ line :=
  fun hmem => (h.isPlain '\n' hmem).2 rfl

theorem Token.Rows.notMem_newline {d n : Nat} {p : Position} {lines : List (List Char)}
    {ts : List Token} (h : Rows d n p lines ts) : ∀ line ∈ lines, '\n' ∉ line := by
  have hspaces {line : List Char} (hblank : Blank line) : '\n' ∉ line :=
    (scansLine_blank (p := default) hblank).notMem_newline
  induction h with
  | done => simp
  | blank hblank _ _ ih => exact List.forall_mem_cons.mpr ⟨hspaces hblank, ih⟩
  | last hblank => exact List.forall_mem_cons.mpr ⟨hspaces hblank, by simp⟩
  | text _ hlexemes _ _ ih => exact List.forall_mem_cons.mpr ⟨hlexemes.notMem_newline, ih⟩

/-- Lines with an end each, read as lines. -/
theorem lines_flatMap {lines : List (List Char)} (h : ∀ line ∈ lines, '\n' ∉ line) :
    Source.lines (lines.flatMap (· ++ ['\n'])) = lines ++ [[]] := by
  induction lines with
  | nil => rfl
  | cons line lines ih =>
      obtain ⟨hline, hlines⟩ := List.forall_mem_cons.mp h
      rw [List.flatMap_cons, List.append_assoc, Source.lines, List.singleton_append,
        Text.split_append hline, ← Source.lines, ih hlines, List.cons_append]

/-- The first line of a text has no line above it, and needs none if it begins
without spaces. -/
theorem scan_of_below {source : String} {first : List Char} {more : List (List Char)}
    {ts : List Token} (hlines : Source.lines source.toList = first :: more) (hinked : Inked first)
    (h : Below 0 1 (first :: more) ts) : scan source = .ok ts := by
  have hblank : ¬ Blank first := by
    obtain ⟨c, cs, rfl, hc⟩ := hinked
    exact fun hblank => hc (hblank c (by simp))
  cases h Position.start with
  | blank hfirst _ _ | last hfirst => exact absurd hfirst hblank
  | @text _ deeper _ _ _ _ lexemes us hspaces hlexemes _ hrows =>
      have hzero : Source.leadingSpaces first = 0 := leadingSpaces_indented hinked 0
      obtain rfl : deeper = 0 := by
        simp only [indentWidth] at hspaces
        omega
      exact scan_ok.mpr ⟨first, more, lexemes, us, hlines, hlexemes, hrows, rfl⟩

namespace Program

/-- The text of a well-formed program is cut into tokens that derive it. -/
theorem scan_render {p : Program} (h : p.WellFormed) : ∃ us q fs, scan p.render =
    .ok (us ++ [textEnd q]) ∧ DerivesFunctions us fs ∧
      fs.map Function.bare = p.functions.map Function.bare := by
  obtain ⟨us, fs, hfs, hbare, hrows⟩ := rows_functions h (goesOn_last (1 + _))
  refine ⟨us, ⟨1 + (p.functions.flatMap Function.render).length, 1⟩, fs, ?_, hfs, hbare⟩
  have hbelow := hrows.below
  have hlines : Source.lines p.render.toList = p.functions.flatMap Function.render ++ [[]] := by
    rw [render, String.toList_ofList]
    apply lines_flatMap
    intro line hline
    exact (hbelow Position.start).notMem_newline line (List.mem_append_left _ hline)
  cases hfunctions : p.functions with
  | nil =>
      -- The text is empty, and its only line is the first.
      rw [hfunctions] at hlines hbare
      obtain rfl := List.map_eq_nil_iff.mp hbare
      cases hfs
      exact scan_ok.mpr ⟨[], [], [], _, hlines, .nil, .done, rfl⟩
  | cons f rest =>
      rw [hfunctions] at hlines hbelow
      exact scan_of_below hlines f.inked_header hbelow

theorem ofTokens_of_derives {us : List Token} {fs : List Function} {q : Position}
    (hus : ∀ t ∈ us, t.kind ≠ .eof) (h : DerivesFunctions us fs) :
    ∃ p, ofTokens (us ++ [textEnd q]) = .ok ⟨fs, p⟩ := by
  refine ⟨_, (ofTokens_ok (by rwa [List.dropLast_concat])).mpr ⟨fs, ?_, rfl⟩⟩
  have hahead := ahead_ofTokens us q
  generalize Cursor.ofTokens (us ++ [textEnd q]) = c at hahead ⊢
  rcases c with ⟨ahead, last, hlast⟩
  obtain rfl : ahead = us := hahead
  rwa [Cursor.skipLineEnd, kind_mk, if_neg h.start]

/-- Texts reach the well-formed trees, and no others: every well-formed program
is read from its own text, and whatever a text reads as is well formed. -/
theorem ofSource_reaches_wellFormed :
    (∀ p : Program, p.WellFormed → ∃ q, ofSource p.render = .ok q ∧ q.bare = p.bare) ∧
      ∀ (source : String) (p : Program), ofSource source = .ok p → p.WellFormed := by
  constructor
  · intro p h
    obtain ⟨us, q, fs, hscan, hfs, hbare⟩ := scan_render h
    obtain ⟨r, hread⟩ := ofTokens_of_derives (kind_ne_eof_of_scan hscan) hfs
    refine ⟨⟨fs, r⟩, ofSource_ok.mpr ⟨_, hscan, hread⟩, ?_⟩
    simp only [bare, hbare]
  · intro source p h
    exact wellFormed_of_ofSource h

/-- Two functions, with blocks that end at once, are read from their own text,
and a function without statements from none. -/
theorem ofSource_reaches_wellFormed_nested :
    (∃ p : Program, p.functions.length = 2 ∧ p.WellFormed ∧
      ∃ q, ofSource p.render = .ok q ∧ q.bare = p.bare) ∧
    ∀ source, ofSource source ≠ .ok ⟨[⟨"f", [], .void, ⟨[], default⟩, default⟩], default⟩ := by
  let source := "
def f(a: u8, b: thing) -> bool:
    if f(a, b) == true != false:
        let c: i8 = -(1 + +2) + 255
        if c == 3:
            print(c)
def g() -> void:
    f(0, g())
"
  have hread : (ofSource source).toOption.map (·.functions.length) = some 2 := by decide +kernel
  obtain ⟨p, hp, hlength⟩ := Option.map_eq_some_iff.mp hread
  have hwell := ofSource_reaches_wellFormed.2 source p (Result.ok_of_toOption hp)
  refine ⟨⟨p, hlength, hwell, ofSource_reaches_wellFormed.1 p hwell⟩, fun text h => ?_⟩
  have hempty := ofSource_reaches_wellFormed.2 text _ h
  exact (hempty _ (List.mem_singleton_self _)).body.1 rfl

end Program

end Octet
