import Octet.Proofs.Token.Layout
import Octet.Proofs.Tree.Positions

/-!
Indentation is nesting. The functions and statements of a program, walked
through from the first to the last with each in front of its parts, begin one
line each, in the order of the walk, and a line is indented as deep as what
begins it is nested.

The lines are found among the tokens: one starts at every lexeme that stands
behind no other lexeme, and the steps of indentation in front of it add up to
its level. On the one side the grammar says what starts there, on the other side
the rows of the text say in which line and column that is.
-/

namespace Octet

/-- A function, or a statement that is no block. -/
inductive Node where
  | function (f : Function)
  | stmt (s : Stmt)

def Node.position : Node → Position
  | .function f => f.position
  | .stmt s => s.position

/-- The block begins at the beginning of the line of its first statement. -/
def Block.OpensLine (b : Block) : Prop :=
  b.position.column = 1 ∧ ∃ s, b.body.head? = some s ∧ s.position.line = b.position.line

namespace Stmt

mutual

/-- The statement and the statements in it, each with its depth and in front of
what is in it. A block is no step of the walk, but one step deeper. -/
def walk (d : Nat) : Stmt → List (Nat × Node)
  | block body _ => walkAll (d + 1) body
  | ifThen condition consequence p =>
      (d, .stmt (ifThen condition consequence p)) :: consequence.walk d
  | s => [(d, .stmt s)]

def walkAll (d : Nat) : List Stmt → List (Nat × Node)
  | [] => []
  | s :: body => s.walk d ++ walkAll d body

end

mutual

def blocks : Stmt → List Block
  | block body p => ⟨body, p⟩ :: blocksAll body
  | ifThen _ consequence _ => consequence.blocks
  | _ => []

def blocksAll : List Stmt → List Block
  | [] => []
  | s :: body => s.blocks ++ blocksAll body

end

mutual

/-- No statement is less deep than the one that it is in. -/
theorem le_of_mem_walk {d : Nat} {x : Nat × Node} : ∀ {s : Stmt}, x ∈ s.walk d → d ≤ x.1
  | block _ _, hx => by
      rw [walk] at hx
      exact Nat.le_of_succ_le (le_of_mem_walkAll hx)
  | ifThen _ _ _, hx => by
      rw [walk] at hx
      rcases List.mem_cons.mp hx with rfl | hx
      · exact Nat.le_refl d
      · exact le_of_mem_walk hx
  | print _ _, hx | declare _ _ _ _, hx | assign _ _ _, hx | ret _ _, hx | evaluate _, hx => by
      obtain rfl := List.mem_singleton.mp hx
      exact Nat.le_refl d

theorem le_of_mem_walkAll {d : Nat} {x : Nat × Node} :
    ∀ {body : List Stmt}, x ∈ walkAll d body → d ≤ x.1
  | [], hx => by cases hx
  | s :: body, hx => by
      rw [walkAll] at hx
      rcases List.mem_append.mp hx with hx | hx
      · exact le_of_mem_walk hx
      · exact le_of_mem_walkAll hx

end

end Stmt

def Function.walk (f : Function) : List (Nat × Node) := (0, .function f) :: f.body.toStmt.walk 0

/-- The functions and statements of a program in the order of its text, each with
its depth. -/
def Program.walk (p : Program) : List (Nat × Node) := p.functions.flatMap Function.walk

def Program.blocks (p : Program) : List Block := p.functions.flatMap fun f => f.body.toStmt.blocks

namespace Token

/-! ### Where lines start -/

/-- Where a line starts among tokens: the level of the line, its first lexeme and
the tokens behind that one. -/
structure LineStart where
  level : Int
  first : Token
  behind : List Token

/-- The lines that start among the tokens, at every lexeme that stands behind no
other. The first token is at the level, and may be such a lexeme if nothing
stands in front of it. -/
def lineStarts (n : Int) (free : Bool) : List Token → List LineStart
  | [] => []
  | t :: ts =>
      if free && t.kind.isLexeme then ⟨n, t, ts⟩ :: lineStarts n false ts
      else lineStarts (n + level [t]) (!t.kind.isLexeme) ts

/-- A line starts behind a token that is no lexeme, or at the first token. -/
theorem split_of_mem_lineStarts {n : Int} {free : Bool} {ts : List Token} {s : LineStart}
    (h : s ∈ lineStarts n free ts) : ∃ before, ts = before ++ s.first :: s.behind ∧
      (before = [] → free = true) ∧ ∀ u ∈ before.getLast?, u.kind.isLexeme = false := by
  fun_induction lineStarts n free ts with
  | case1 => cases h
  | case2 n free t ts hfree ih =>
      rcases List.mem_cons.mp h with rfl | h
      · exact ⟨[], rfl, fun _ => (Bool.and_eq_true_iff.mp hfree).1, by simp⟩
      · obtain ⟨before, rfl, hnil, hlast⟩ := ih h
        refine ⟨t :: before, rfl, nofun, ?_⟩
        rwa [List.getLast?_cons_of_ne_nil fun e => Bool.false_ne_true (hnil e)]
  | case3 n free t ts _ ih =>
      obtain ⟨before, rfl, hnil, hlast⟩ := ih h
      refine ⟨t :: before, rfl, nofun, ?_⟩
      cases before with
      | nil => simpa using hnil rfl
      | cons u before => rwa [List.getLast?_cons_cons]

theorem lineStarts_lexemes {n : Int} {us : List Token} (h : ∀ t ∈ us, t.kind.isLexeme = true)
    (ts : List Token) : lineStarts n false (us ++ ts) = lineStarts n false ts := by
  induction us with
  | nil => rfl
  | cons u us ih =>
      have hu := h u (by simp)
      rw [List.cons_append, lineStarts, level_singleton (isStep_of_isLexeme hu), Int.add_zero, hu]
      exact ih fun t ht => h t (by simp [ht])

/-- Lexemes at the beginning of a line make one start. -/
theorem lineStarts_line {n : Int} {t : Token} {us : List Token}
    (h : ∀ u ∈ t :: us, u.kind.isLexeme = true) (ts : List Token) :
    lineStarts n true (t :: us ++ ts) = ⟨n, t, us ++ ts⟩ :: lineStarts n false ts := by
  have hus : ∀ u ∈ us, u.kind.isLexeme = true := fun u hu => h u (by simp [hu])
  rw [List.cons_append, lineStarts, h t (by simp), Bool.and_self, if_pos rfl,
    lineStarts_lexemes hus]

theorem lineStarts_free {n : Int} {free : Bool} {t : Token} (h : t.kind.isLexeme = false)
    (ts : List Token) : lineStarts n free (t :: ts) = lineStarts (n + level [t]) true ts := by
  rw [lineStarts, h]
  simp

theorem lineStarts_newline {n : Int} {free : Bool} {t : Token} (h : t.kind = .newline)
    (ts : List Token) : lineStarts n free (t :: ts) = lineStarts n true ts := by
  rw [lineStarts_free (by rw [h]; rfl), level_singleton (by rw [h]; rfl), Int.add_zero]

/-- Tokens that are no lexemes start no line. -/
theorem lineStarts_layout {n : Int} {us : List Token} (h : ∀ t ∈ us, t.kind.isLexeme = false)
    (ts : List Token) : lineStarts n true (us ++ ts) = lineStarts (n + level us) true ts := by
  induction us generalizing n with
  | nil => simp
  | cons u us ih =>
      rw [List.cons_append, lineStarts_free (h u (by simp)), ih fun t ht => h t (by simp [ht]),
        Int.add_assoc, ← level_append]
      rfl

/-- The first lexeme of a line stands behind its spaces. -/
theorem ScansLine.column_first {p : Position} {line : List Char} {ts : List Token}
    (h : ScansLine p line ts) :
    ∀ t ∈ ts.head?, t.position.column = p.column + Source.leadingSpaces line := by
  induction h with
  | nil => simp
  | space _ ih =>
      intro t ht
      rw [ih t ht]
      simp [Position.right, Source.leadingSpaces, Nat.add_assoc, Nat.add_comm 1]
  | lexeme hlexeme _ _ _ =>
      rintro t ⟨⟩
      obtain ⟨c, tail, rfl, hc⟩ := hlexeme.exists_cons
      simp [Source.leadingSpaces, hc]

/-- A line below the first one starts as deep as its level says. -/
def LineStart.Indented (s : LineStart) : Prop :=
  s.first.position.column = indentWidth * s.level + 1

def LineStart.Above (s u : LineStart) : Prop := s.first.position.line < u.first.position.line

theorem lineStarts_textEnd {n : Int} {free : Bool} {p : Position} :
    lineStarts n free [textEnd p] = [] := by
  rw [lineStarts_free rfl]
  rfl

/-- The lines of the rows of a text start one below the other, and each at its
level. -/
theorem Rows.lineStarts {d n : Nat} {p : Position} {more : List (List Char)} {ts : List Token}
    (h : Rows d n p more ts) (free : Bool) :
    (∀ s ∈ lineStarts d free ts, n ≤ s.first.position.line ∧ s.Indented) ∧
      (lineStarts d free ts).Pairwise LineStart.Above := by
  induction h generalizing free with
  | done => simp [lineStarts_textEnd]
  | blank _ _ _ ih =>
      obtain ⟨hall, hsorted⟩ := ih free
      exact ⟨fun s hs => ⟨Nat.le_of_succ_le (hall s hs).1, (hall s hs).2⟩, hsorted⟩
  | last _ =>
      rw [lineStarts_newline rfl, lineStarts_layout fun t ht => isLexeme_of_mem_steps ht,
        lineStarts_textEnd]
      simp
  | @text d deeper n p line more lexemes ts hspaces hlexemes hne _ ih =>
      obtain ⟨hall, hsorted⟩ := ih false
      obtain ⟨t, us, rfl⟩ := List.exists_cons_of_ne_nil hne
      have hline : t.position.line = n := hlexemes.position_line t (by simp)
      have hcolumn : t.position.column = 1 + indentWidth * deeper := by
        rw [hlexemes.column_first t rfl, hspaces]
      rw [lineStarts_newline rfl, List.append_assoc,
        lineStarts_layout fun t ht => isLexeme_of_mem_steps ht, add_level_steps,
        lineStarts_line hlexemes.isLexeme]
      constructor
      · intro s hs
        rcases List.mem_cons.mp hs with rfl | hs
        · refine ⟨Nat.le_of_eq hline.symm, ?_⟩
          simp only [LineStart.Indented, hcolumn]
          omega
        · exact ⟨Nat.le_of_succ_le (hall s hs).1, (hall s hs).2⟩
      · refine List.pairwise_cons.mpr ⟨fun s hs => ?_, hsorted⟩
        have := (hall s hs).1
        simp only [LineStart.Above]
        omega

/-- The lines of a text start one below the other. All but the first of them are
indented as deep as their level says, and the first is at level zero. -/
theorem lineStarts_of_scan {source : String} {tokens : List Token} (h : scan source = .ok tokens) :
    (∀ s ∈ lineStarts 0 true tokens,
      s.first.position.line = 1 ∧ s.level = 0 ∨ s.Indented) ∧
      (lineStarts 0 true tokens).Pairwise LineStart.Above := by
  obtain ⟨first, more, lexemes, ts, -, hlexemes, hrows, rfl⟩ := scan_ok.mp h
  cases lexemes with
  | nil =>
      obtain ⟨hall, hsorted⟩ := hrows.lineStarts true
      exact ⟨fun s hs => .inr (hall s hs).2, hsorted⟩
  | cons t us =>
      obtain ⟨hall, hsorted⟩ := hrows.lineStarts false
      have hline : t.position.line = 1 := hlexemes.position_line t (by simp)
      rw [lineStarts_line hlexemes.isLexeme]
      constructor
      · intro s hs
        rcases List.mem_cons.mp hs with rfl | hs
        · exact .inl ⟨hline, rfl⟩
        · exact .inr (hall s hs).2
      · refine List.pairwise_cons.mpr ⟨fun s hs => ?_, hsorted⟩
        have := (hall s hs).1
        simp only [LineStart.Above]
        omega

/-- Lexemes next to each other stand on one line. -/
theorem line_of_isChain {t : Token} {us : List Token} (h : (t :: us).IsChain Follows)
    (hlexeme : ∀ u ∈ t :: us, u.kind.isLexeme = true) :
    ∀ u ∈ t :: us, u.position.line = t.position.line := by
  induction us generalizing t with
  | nil => simp
  | cons v us ih =>
      obtain ⟨hfollows, hrest⟩ := List.isChain_cons_cons.mp h
      have hv : v.position.line = t.position.line := by
        have hkind := hlexeme v (by simp)
        rcases hfollows.of_lexeme (hlexeme t (by simp)) with ⟨hk, -⟩ | ⟨-, hline⟩
        · rw [hk] at hkind
          cases hkind
        · exact hline
      intro u hu
      rcases List.mem_cons.mp hu with rfl | hu
      · rfl
      · rw [ih hrest (fun w hw => hlexeme w (by simp [hw])) u hu, hv]

end Token

namespace Grammar

open Token

/-! ### What starts a line -/

mutual

/-- An expression is made of lexemes. -/
theorem DerivesExpr.isLexeme : ∀ {ts : List Token} {e : Expr}, DerivesExpr ts e →
    ∀ t ∈ ts, t.kind.isLexeme = true
  | _, _, .single h => h.isLexeme
  | _, _, .compare h hop h' => by
      rw [List.forall_mem_append, List.forall_mem_cons]
      exact ⟨h.isLexeme, hop.isLexeme, h'.isLexeme⟩

theorem DerivesAddition.isLexeme : ∀ {ts : List Token} {e : Expr}, DerivesAddition ts e →
    ∀ t ∈ ts, t.kind.isLexeme = true
  | _, _, .single h => h.isLexeme
  | _, _, .add h hop h' => by
      rw [List.forall_mem_append, List.forall_mem_cons]
      exact ⟨h.isLexeme, isLexeme_of_kind hop rfl, h'.isLexeme⟩

theorem DerivesFactor.isLexeme : ∀ {ts : List Token} {e : Expr}, DerivesFactor ts e →
    ∀ t ∈ ts, t.kind.isLexeme = true
  | _, _, .unaryPlus hop h | _, _, .negate hop h =>
      List.forall_mem_cons.mpr ⟨isLexeme_of_kind hop rfl, h.isLexeme⟩
  | _, _, .group hlp h hrp => by
      rw [List.forall_mem_cons, List.forall_mem_append, List.forall_mem_singleton]
      exact ⟨isLexeme_of_kind hlp rfl, h.isLexeme, isLexeme_of_kind hrp rfl⟩
  | _, _, .number h _ | _, _, .true h | _, _, .false h | _, _, .var h =>
      List.forall_mem_singleton.mpr (isLexeme_of_kind h rfl)
  | _, _, .callNone hf hlp hrp => by
      rw [List.forall_mem_cons, List.forall_mem_cons, List.forall_mem_singleton]
      exact ⟨isLexeme_of_kind hf rfl, isLexeme_of_kind hlp rfl, isLexeme_of_kind hrp rfl⟩
  | _, _, .call hf hlp h hrp => by
      rw [List.forall_mem_cons, List.forall_mem_cons, List.forall_mem_append,
        List.forall_mem_singleton]
      exact ⟨isLexeme_of_kind hf rfl, isLexeme_of_kind hlp rfl, h.isLexeme,
        isLexeme_of_kind hrp rfl⟩

theorem DerivesArguments.isLexeme : ∀ {ts : List Token} {args : List Expr},
    DerivesArguments ts args → ∀ t ∈ ts, t.kind.isLexeme = true
  | _, _, .single h => h.isLexeme
  | _, _, .cons h hcomma h' => by
      rw [List.forall_mem_append, List.forall_mem_cons]
      exact ⟨h.isLexeme, isLexeme_of_kind hcomma rfl, h'.isLexeme⟩

end

theorem DerivesType.isLexeme {t : Token} {type : Ty} (h : DerivesType t type) :
    t.kind.isLexeme = true := by
  cases h with
  | void h | bool h | i8 h | u8 h | named h => exact isLexeme_of_kind h rfl

theorem DerivesParameters.isLexeme {ts : List Token} {ps : List Parameter}
    (h : DerivesParameters ts ps) : ∀ t ∈ ts, t.kind.isLexeme = true := by
  induction h with
  | single hx hcolon ht =>
      rw [List.forall_mem_cons, List.forall_mem_cons, List.forall_mem_singleton]
      exact ⟨isLexeme_of_kind hx rfl, isLexeme_of_kind hcolon rfl, ht.isLexeme⟩
  | cons hx hcolon ht hcomma _ ih =>
      simp only [List.forall_mem_cons]
      exact ⟨isLexeme_of_kind hx rfl, isLexeme_of_kind hcolon rfl, ht.isLexeme,
        isLexeme_of_kind hcomma rfl, ih⟩

theorem DerivesParameterList.isLexeme {ts : List Token} {ps : List Parameter}
    (h : DerivesParameterList ts ps) : ∀ t ∈ ts, t.kind.isLexeme = true := by
  cases h with
  | none => simp
  | some h => exact h.isLexeme

theorem DerivesExpr.exists_first {ts : List Token} {e : Expr} (h : DerivesExpr ts e) :
    ∃ t us, ts = t :: us := by
  cases ts with
  | cons t us => exact ⟨t, us, rfl⟩
  | nil => exact absurd (h.start []) (by decide)

/-- The tokens make the function or the statement. -/
inductive DerivesNode : List Token → Node → Prop where
  | function {ts : List Token} {f : Function} : DerivesFunction ts f → DerivesNode ts (.function f)
  | stmt {ts : List Token} {s : Stmt} : DerivesStmt ts s → DerivesNode ts (.stmt s)

/-- The lexemes of the line that a node starts. Only an expression may have its
position from another one than the first. -/
structure Heads (t : Token) (us : List Token) (x : Node) : Prop where
  isLexeme : ∀ u ∈ t :: us, u.kind.isLexeme = true
  position : ∃ u ∈ t :: us, x.position = u.position
  first : (∀ e, x ≠ .stmt (.evaluate e)) → x.position = t.position

theorem heads_of_first {t : Token} {us : List Token} {x : Node} (ht : t.kind.isLexeme = true)
    (hus : ∀ u ∈ us, u.kind.isLexeme = true) (hx : x.position = t.position) : Heads t us x :=
  ⟨List.forall_mem_cons.mpr ⟨ht, hus⟩, ⟨t, by simp, hx⟩, fun _ => hx⟩

theorem heads_ifThen {ts : List Token} {condition : Expr} {consequence : Stmt}
    {start colon : Token} (hstart : start.kind = .kwIf) (h : DerivesExpr ts condition)
    (hcolon : colon.kind = .colon) :
    Heads start (ts ++ [colon]) (.stmt (.ifThen condition consequence start.position)) := by
  refine heads_of_first (isLexeme_of_kind hstart rfl) ?_ rfl
  rw [List.forall_mem_append, List.forall_mem_singleton]
  exact ⟨h.isLexeme, isLexeme_of_kind hcolon rfl⟩

/-- A statement starts with the lexemes of its line, and ends with the line unless
it is a condition. -/
theorem DerivesStmt.heads {ts : List Token} {s : Stmt} (h : DerivesStmt ts s) :
    ∃ t us nl rest, ts = t :: us ++ nl :: rest ∧ Heads t us (.stmt s) ∧ nl.kind = .newline ∧
      ((∃ c b p, s = .ifThen c b p) ∨ rest = []) := by
  cases h with
  | @ifThen ts us _ _ start colon nl hstart h hcolon hnl _ =>
      exact ⟨start, ts ++ [colon], nl, us, by simp, heads_ifThen hstart h hcolon, hnl,
        .inl ⟨_, _, _, rfl⟩⟩
  | @print ts _ start lp rp nl hstart hlp h hrp hnl =>
      refine ⟨start, lp :: (ts ++ [rp]), nl, [], by simp, ?_, hnl, .inr rfl⟩
      refine heads_of_first (isLexeme_of_kind hstart rfl) ?_ rfl
      rw [List.forall_mem_cons, List.forall_mem_append, List.forall_mem_singleton]
      exact ⟨isLexeme_of_kind hlp rfl, h.isLexeme, isLexeme_of_kind hrp rfl⟩
  | @declare ts _ _ start x colon t assign nl hstart hx hcolon ht hassign h hnl =>
      refine ⟨start, x :: colon :: t :: assign :: ts, nl, [], by simp, ?_, hnl, .inr rfl⟩
      refine heads_of_first (isLexeme_of_kind hstart rfl) ?_ rfl
      simp only [List.forall_mem_cons]
      exact ⟨isLexeme_of_kind hx rfl, isLexeme_of_kind hcolon rfl, ht.isLexeme,
        isLexeme_of_kind hassign rfl, h.isLexeme⟩
  | @assign ts _ x assign nl hx hassign h hnl =>
      refine ⟨x, assign :: ts, nl, [], by simp, ?_, hnl, .inr rfl⟩
      refine heads_of_first (isLexeme_of_kind hx rfl) ?_ rfl
      exact List.forall_mem_cons.mpr ⟨isLexeme_of_kind hassign rfl, h.isLexeme⟩
  | @ret ts _ start nl hstart h hnl =>
      exact ⟨start, ts, nl, [], rfl, heads_of_first (isLexeme_of_kind hstart rfl) h.isLexeme rfl,
        hnl, .inr rfl⟩
  | @evaluate ts value nl h hnl =>
      obtain ⟨t, us, rfl⟩ := h.exists_first
      refine ⟨t, us, nl, [], rfl, ⟨h.isLexeme, ?_, fun hne => absurd rfl (hne value)⟩, hnl,
        .inr rfl⟩
      have hplace := h.positions_sublist.subset value.position_mem_positions
      obtain ⟨u, hu, hposition⟩ := List.mem_map.mp hplace
      exact ⟨u, List.mem_of_mem_filter hu, hposition.symm⟩

/-- A function starts with the lexemes of its header, and its body is all that
follows. -/
theorem DerivesFunction.heads {ts : List Token} {f : Function} (h : DerivesFunction ts f) :
    ∃ t us nl rest, ts = t :: us ++ nl :: rest ∧ Heads t us (.function f) ∧ nl.kind = .newline ∧
      DerivesBlock rest f.body := by
  cases h with
  | @define ts us ps _ body start name lp rp arrow t colon nl hstart hname hlp hps hrp harrow ht
      hcolon hnl hbody =>
      refine ⟨start, name :: lp :: (ts ++ [rp, arrow, t, colon]), nl, us, by simp, ?_, hnl, hbody⟩
      refine heads_of_first (isLexeme_of_kind hstart rfl) ?_ rfl
      simp only [List.forall_mem_cons, List.forall_mem_append]
      exact ⟨isLexeme_of_kind hname rfl, isLexeme_of_kind hlp rfl, hps.isLexeme,
        isLexeme_of_kind hrp rfl, isLexeme_of_kind harrow rfl, ht.isLexeme,
        isLexeme_of_kind hcolon rfl, by simp⟩

theorem DerivesNode.heads {ts : List Token} {x : Node} (h : DerivesNode ts x) :
    ∃ t us nl rest, ts = t :: us ++ nl :: rest ∧ Heads t us x := by
  cases h with
  | function h =>
      obtain ⟨t, us, nl, rest, hts, hheads, -⟩ := h.heads
      exact ⟨t, us, nl, rest, hts, hheads⟩
  | stmt h =>
      obtain ⟨t, us, nl, rest, hts, hheads, -⟩ := h.heads
      exact ⟨t, us, nl, rest, hts, hheads⟩

/-- What stands at a start is a node, as deep as the level there. -/
def StartedBy (x : Nat × Node) (s : LineStart) : Prop :=
  s.level = x.1 ∧ ∃ us rest, s.behind = us ++ rest ∧ DerivesNode (s.first :: us) x.2

/-- The nodes start the lines among the tokens, whatever comes behind these. -/
def StartsLines (d : Nat) (ts : List Token) (nodes : List (Nat × Node)) : Prop :=
  ∀ behind, ∃ starts, lineStarts d true (ts ++ behind) = starts ++ lineStarts d true behind ∧
    List.Forall₂ StartedBy nodes starts

theorem startsLines_nil (d : Nat) : StartsLines d [] [] := fun _ => ⟨[], rfl, .nil⟩

theorem StartsLines.append {d : Nat} {ts us : List Token} {l r : List (Nat × Node)}
    (h : StartsLines d ts l) (h' : StartsLines d us r) : StartsLines d (ts ++ us) (l ++ r) := by
  intro behind
  obtain ⟨starts, hstarts, hl⟩ := h (us ++ behind)
  obtain ⟨more, hmore, hr⟩ := h' behind
  refine ⟨starts ++ more, ?_, List.rel_append hl hr⟩
  rw [List.append_assoc, hstarts, hmore, List.append_assoc]

/-- The line that a node starts is followed by the lines of what is in it. -/
theorem Heads.startsLines {d : Nat} {t nl : Token} {us rest : List Token} {x : Node}
    {l : List (Nat × Node)} (h : Heads t us x) (hx : DerivesNode (t :: us ++ nl :: rest) x)
    (hnl : nl.kind = .newline) (hrest : StartsLines d rest l) :
    StartsLines d (t :: us ++ nl :: rest) ((d, x) :: l) := by
  intro behind
  obtain ⟨starts, hstarts, hl⟩ := hrest behind
  refine ⟨⟨d, t, us ++ nl :: (rest ++ behind)⟩ :: starts, ?_, .cons ⟨rfl, ?_⟩ hl⟩
  · rw [List.append_assoc, lineStarts_line h.isLexeme, List.cons_append, lineStarts_newline hnl,
      hstarts]
    rfl
  · exact ⟨us ++ nl :: rest, behind, by simp, hx⟩

/-- A block starts its lines one step deeper. -/
theorem startsLines_block {d : Nat} {start stop : Token} {ts : List Token}
    {l : List (Nat × Node)} (hstart : start.kind = .indent) (h : StartsLines (d + 1) ts l)
    (hstop : stop.kind = .dedent) : StartsLines d (start :: (ts ++ [stop])) l := by
  intro behind
  obtain ⟨starts, hstarts, hl⟩ := h (stop :: behind)
  have hin : level [start] = 1 := by simp [level, hstart]
  have hout : level [stop] = -1 := by simp [level, hstop]
  refine ⟨starts, ?_, hl⟩
  rw [List.cons_append, List.append_assoc, List.singleton_append,
    lineStarts_free (by rw [hstart]; rfl), hin, ← Int.natCast_succ, hstarts,
    lineStarts_free (by rw [hstop]; rfl), hout, Int.natCast_succ, Int.add_neg_cancel_right]

/-- A statement with no other in it starts one line. -/
theorem DerivesStmt.startsLine {ts : List Token} {s : Stmt} (h : DerivesStmt ts s)
    (hs : ∀ c b p, s ≠ .ifThen c b p) (d : Nat) : StartsLines d ts [(d, .stmt s)] := by
  obtain ⟨t, us, nl, rest, rfl, hheads, hnl, hrest⟩ := h.heads
  rcases hrest with ⟨c, b, p, hif⟩ | rfl
  · exact absurd hif (hs c b p)
  · exact hheads.startsLines (.stmt h) hnl (startsLines_nil d)

mutual

/-- A statement starts a line, and so do the statements in it. -/
theorem DerivesStmt.startsLines : ∀ {ts : List Token} {s : Stmt}, DerivesStmt ts s →
    ∀ d : Nat, StartsLines d ts (s.walk d)
  | _, _, .ifThen hstart h hcolon hnl hbody, d => by
      have hderives := DerivesNode.stmt (.ifThen hstart h hcolon hnl hbody)
      rw [List.append_cons, ← List.cons_append] at hderives ⊢
      exact (heads_ifThen hstart h hcolon).startsLines hderives hnl (hbody.startsLines d)
  | _, _, .print hstart hlp h hrp hnl, d =>
      DerivesStmt.startsLine (.print hstart hlp h hrp hnl) nofun d
  | _, _, .declare hstart hx hcolon ht hassign h hnl, d =>
      DerivesStmt.startsLine (.declare hstart hx hcolon ht hassign h hnl) nofun d
  | _, _, .assign hx hassign h hnl, d => DerivesStmt.startsLine (.assign hx hassign h hnl) nofun d
  | _, _, .ret hstart h hnl, d => DerivesStmt.startsLine (.ret hstart h hnl) nofun d
  | _, _, .evaluate h hnl, d => DerivesStmt.startsLine (.evaluate h hnl) nofun d

theorem DerivesStmts.startsLines : ∀ {ts : List Token} {body : List Stmt}, DerivesStmts ts body →
    ∀ d : Nat, StartsLines d ts (Stmt.walkAll d body)
  | _, _, .nil, d => startsLines_nil d
  | _, _, .cons h h', d => (h.startsLines d).append (h'.startsLines d)

theorem DerivesBlock.startsLines : ∀ {ts : List Token} {b : Block}, DerivesBlock ts b →
    ∀ d : Nat, StartsLines d ts (b.toStmt.walk d)
  | _, _, .indented hstart h hstop, d => startsLines_block hstart (h.startsLines (d + 1)) hstop

end

theorem DerivesFunctions.startsLines {ts : List Token} {fs : List Function}
    (h : DerivesFunctions ts fs) : StartsLines 0 ts (fs.flatMap Function.walk) := by
  induction h with
  | nil => exact startsLines_nil 0
  | cons h _ ih =>
      obtain ⟨t, us, nl, rest, rfl, hheads, hnl, hbody⟩ := h.heads
      exact (hheads.startsLines (.function h) hnl (hbody.startsLines 0)).append ih

/-! ### Blocks -/

/-- Tokens next to each other as in a text, with steps at the beginning of a line. -/
structure InLines (ts : List Token) : Prop where
  isChain : ts.IsChain Follows
  step : ∀ t ∈ ts, t.kind.isStep = true → t.position.column = 1

theorem InLines.of_append {us ts : List Token} (h : InLines (us ++ ts)) :
    InLines us ∧ InLines ts :=
  ⟨⟨h.isChain.left_of_append, fun t ht => h.step t (List.mem_append_left _ ht)⟩,
    ⟨h.isChain.right_of_append, fun t ht => h.step t (List.mem_append_right _ ht)⟩⟩

theorem InLines.of_cons {t : Token} {ts : List Token} (h : InLines (t :: ts)) : InLines ts :=
  (@InLines.of_append [t] ts h).2

theorem inLines_of_scan {source : String} {tokens : List Token}
    (h : scan source = .ok tokens) : InLines tokens := by
  refine ⟨isChain_of_scan h, fun t ht hstep => ?_⟩
  obtain ⟨before, behind, rfl⟩ := List.append_of_mem ht
  exact ((fits_of_scan h).step hstep).1

/-- A node has a position on the line that it starts. -/
theorem DerivesNode.line {t : Token} {us : List Token} {x : Node} (h : DerivesNode (t :: us) x)
    (hlines : InLines (t :: us)) : x.position.line = t.position.line := by
  obtain ⟨v, vs, nl, rest, hts, hheads⟩ := h.heads
  rw [hts] at hlines
  obtain ⟨rfl, -⟩ := List.cons.inj hts
  obtain ⟨u, hu, hposition⟩ := hheads.position
  rw [hposition, line_of_isChain hlines.isChain.left_of_append hheads.isLexeme u hu]

/-- Behind the step that begins a block stands the first lexeme of its first
statement. -/
theorem opensLine_of_derives {ts : List Token} {body : List Stmt} {start stop : Token}
    (hstart : start.kind = .indent) (h : DerivesStmts ts body) (hstop : stop.kind = .dedent)
    (hlines : InLines (start :: (ts ++ [stop]))) : Block.OpensLine ⟨body, start.position⟩ := by
  have hstep : start.kind.isStep = true := by rw [hstart]; rfl
  refine ⟨hlines.step start (by simp) hstep, ?_⟩
  cases h with
  | nil =>
      -- A step in is not followed by a step out.
      rcases (List.isChain_cons_cons.mp hlines.isChain).1.of_step hstep with rfl | ⟨hk, -⟩
      · rw [hstop] at hstart
        cases hstart
      · simp [hstop, Kind.isLexeme] at hk
  | @cons us vs s body h _ =>
      have hderives := DerivesNode.stmt h
      obtain ⟨t, us, nl, rest, rfl, -⟩ := hderives.heads
      refine ⟨s, rfl, (hderives.line hlines.of_cons.of_append.1.of_append.1).trans ?_⟩
      rcases (List.isChain_cons_cons.mp hlines.isChain).1.of_step hstep with rfl | ⟨-, hline⟩
      · rfl
      · exact hline

mutual

theorem DerivesStmt.opensLine : ∀ {ts : List Token} {s : Stmt}, DerivesStmt ts s → InLines ts →
    ∀ b ∈ s.blocks, b.OpensLine
  | _, _, .ifThen _ _ _ _ h, hlines => h.opensLine hlines.of_cons.of_append.2.of_cons.of_cons
  | _, _, .print _ _ _ _ _, _ | _, _, .declare _ _ _ _ _ _ _, _ | _, _, .assign _ _ _ _, _
  | _, _, .ret _ _ _, _ | _, _, .evaluate _ _, _ => nofun

theorem DerivesStmts.opensLine : ∀ {ts : List Token} {body : List Stmt}, DerivesStmts ts body →
    InLines ts → ∀ b ∈ Stmt.blocksAll body, b.OpensLine
  | _, _, .nil, _ => nofun
  | _, _, .cons h h', hlines =>
      List.forall_mem_append.mpr
        ⟨h.opensLine hlines.of_append.1, h'.opensLine hlines.of_append.2⟩

theorem DerivesBlock.opensLine : ∀ {ts : List Token} {b : Block}, DerivesBlock ts b →
    InLines ts → ∀ c ∈ b.toStmt.blocks, c.OpensLine
  | _, _, .indented hstart h hstop, hlines => by
      refine List.forall_mem_cons.mpr ⟨?_, h.opensLine hlines.of_cons.of_append.1⟩
      exact opensLine_of_derives hstart h hstop hlines

end

theorem DerivesFunctions.opensLine {ts : List Token} {fs : List Function}
    (h : DerivesFunctions ts fs) (hlines : InLines ts) :
    ∀ b ∈ fs.flatMap fun f => f.body.toStmt.blocks, b.OpensLine := by
  induction h with
  | nil => nofun
  | cons h _ ih =>
      obtain ⟨hl, hr⟩ := hlines.of_append
      obtain ⟨t, us, nl, rest, rfl, -, -, hbody⟩ := h.heads
      rw [List.flatMap_cons, List.forall_mem_append]
      exact ⟨hbody.opensLine hl.of_append.2.of_cons, ih hr⟩

end Grammar

namespace Program

open Grammar Token

/-- The token is the first of a node with the depth: it starts a line of the text,
as far in as the depth says, and the node has its position on that line. -/
structure Begins (tokens : List Token) (x : Nat × Node) (t : Token) : Prop where
  derives : ∃ before us behind, tokens = before ++ (t :: us ++ behind) ∧
    DerivesNode (t :: us) x.2 ∧ ∀ u ∈ before.getLast?, u.kind.isLexeme = false
  column : t.position.line = 1 ∧ x.1 = 0 ∨ t.position.column = 4 * x.1 + 1
  line : x.2.position.line = t.position.line

/-- The program is laid out in its text as it is nested. -/
structure Indented (tokens : List Token) (p : Program) : Prop where
  /-- The functions and statements begin the lines of the text one after the
  other, and no two of them begin the same line. -/
  line : ∃ firsts, List.Forall₂ (Begins tokens) p.walk firsts ∧
    firsts.Pairwise fun t u => t.position.line < u.position.line
  statement : ∀ d s, (d, .stmt s) ∈ p.walk → (∀ e, s ≠ .evaluate e) →
    s.position.column = 4 * d + 1
  block : ∀ b ∈ p.blocks, b.OpensLine
  function : ∀ f ∈ p.functions, f.position.column = 1 ∨ f.position.line = 1

/-- The functions and statements of a program start the lines of its text. -/
theorem startedBy_of_derives {tokens : List Token} {p : Program} (h : DerivesProgram tokens p) :
    List.Forall₂ StartedBy p.walk (lineStarts 0 true tokens) := by
  have hplain {ts : List Token} {fs : List Function} {stop : Token} (hfs : DerivesFunctions ts fs)
      (hstop : stop.kind = .eof) :
      List.Forall₂ StartedBy (fs.flatMap Function.walk) (lineStarts 0 true (ts ++ [stop])) := by
    obtain ⟨starts, hstarts, hall⟩ := hfs.startsLines [stop]
    have hnone : lineStarts (0 : Nat) true [stop] = [] := lineStarts_free (by rw [hstop]; rfl) []
    rw [hnone, List.append_nil] at hstarts
    rwa [← hstarts] at hall
  cases h with
  | plain hfs hstop _ => exact hplain hfs hstop
  | behindLineEnd hnl hfs hstop =>
      rw [lineStarts_newline hnl]
      exact hplain hfs hstop

theorem begins_of_startedBy {source : String} {tokens : List Token} {x : Nat × Node}
    {s : LineStart} (hscan : scan source = .ok tokens) (hs : s ∈ lineStarts 0 true tokens)
    (h : StartedBy x s) : Begins tokens x s.first := by
  obtain ⟨hlevel, us, rest, hbehind, hderives⟩ := h
  obtain ⟨before, htokens, -, hlast⟩ := split_of_mem_lineStarts hs
  rw [hbehind] at htokens
  have hlines := inLines_of_scan hscan
  rw [htokens] at hlines
  refine ⟨⟨before, us, rest, htokens, hderives, hlast⟩, ?_, ?_⟩
  · rcases (lineStarts_of_scan hscan).1 s hs with ⟨hline, hzero⟩ | hindented
    · exact .inl ⟨hline, by omega⟩
    · rw [LineStart.Indented, hlevel] at hindented
      exact .inr (by simp only [indentWidth] at hindented; omega)
  · exact hderives.line (@InLines.of_append (s.first :: us) rest hlines.of_append.2).1

/-- Whatever is walked through begins a line. -/
theorem exists_begins {tokens firsts : List Token} {nodes : List (Nat × Node)}
    (h : List.Forall₂ (Begins tokens) nodes firsts) {x : Nat × Node} (hx : x ∈ nodes) :
    ∃ t, Begins tokens x t := by
  induction h with
  | nil => cases hx
  | cons h _ ih =>
      rcases List.mem_cons.mp hx with rfl | hx
      · exact ⟨_, h⟩
      · exact ih hx

/-- All but expressions have the position of their first token. -/
theorem Begins.position {tokens : List Token} {x : Nat × Node} {t : Token}
    (h : Begins tokens x t) (hx : ∀ e, x.2 ≠ .stmt (.evaluate e)) : x.2.position = t.position := by
  obtain ⟨before, us, behind, -, hderives, -⟩ := h.derives
  obtain ⟨v, vs, nl, rest, hts, hheads⟩ := hderives.heads
  obtain ⟨rfl, -⟩ := List.cons.inj hts
  exact hheads.first hx

theorem pos_of_mem_walk {p : Program} {d : Nat} {s : Stmt} (h : (d, .stmt s) ∈ p.walk) :
    1 ≤ d := by
  obtain ⟨f, -, hf⟩ := List.mem_flatMap.mp h
  rcases List.mem_cons.mp hf with hf | hf
  · cases hf
  · exact Stmt.le_of_mem_walkAll (d := 1) hf

/-- A program is laid out in its text as it is nested. -/
theorem indented_of_scan {source : String} {tokens : List Token} {p : Program}
    (hscan : scan source = .ok tokens) (hread : ofTokens tokens = .ok p) : p.Indented tokens := by
  have hderives := ofTokens_derives hscan hread
  have hstarts := startedBy_of_derives hderives
  have hbegins : List.Forall₂ (Begins tokens) p.walk
      ((lineStarts 0 true tokens).map LineStart.first) := by
    refine List.forall₂_map_right_iff.mpr (List.forall₂_iff_zip.mpr ⟨hstarts.length_eq, ?_⟩)
    intro x s hzip
    exact begins_of_startedBy hscan (List.of_mem_zip hzip).2 (List.forall₂_zip hstarts hzip)
  constructor
  case line =>
    exact ⟨_, hbegins, List.pairwise_map.mpr (lineStarts_of_scan hscan).2⟩
  case statement =>
    intro d s hs hne
    obtain ⟨t, ht⟩ := exists_begins hbegins hs
    have hposition : s.position = t.position := ht.position (by simpa using hne)
    have hpos := pos_of_mem_walk hs
    rcases ht.column with ⟨-, hzero⟩ | hcolumn
    · simp only at hzero
      omega
    · rw [hposition, hcolumn]
  case block =>
    have hlines := inLines_of_scan hscan
    cases hderives with
    | plain hfs _ _ => exact hfs.opensLine hlines.of_append.1
    | behindLineEnd _ hfs _ => exact hfs.opensLine hlines.of_cons.of_append.1
  case function =>
    intro f hf
    have hmem : (0, .function f) ∈ p.walk :=
      List.mem_flatMap.mpr ⟨f, hf, by simp [Function.walk]⟩
    obtain ⟨t, ht⟩ := exists_begins hbegins hmem
    have hposition : f.position = t.position := ht.position nofun
    rw [hposition]
    exact ht.column.symm.imp_right And.left

/-- Empty lines, a condition in a condition, two blocks that end at once, and
expressions whose position is not that of their first token. -/
theorem indented_of_scan_nested : ∃ (tokens : List Token) (p : Program),
    p.walk.map (fun x => (x.1, x.2.position)) =
      [(0, ⟨2, 1⟩), (1, ⟨3, 5⟩), (2, ⟨5, 9⟩), (3, ⟨6, 18⟩), (1, ⟨7, 10⟩), (0, ⟨9, 1⟩),
        (1, ⟨10, 5⟩)] ∧
    p.blocks.map Block.position = [⟨3, 1⟩, ⟨5, 1⟩, ⟨6, 1⟩, ⟨10, 1⟩] ∧ p.Indented tokens := by
  let source := "
def f(a: u8) -> u8:
    if a == 1:

        if true:
            +(1) + a
    f(1) == 2

def g() -> void:
    let b: i8 = 3
"
  have hwalk : (ofSource source).toOption.map (fun p =>
      (p.walk.map (fun x => (x.1, x.2.position)), p.blocks.map Block.position)) =
    some ([(0, ⟨2, 1⟩), (1, ⟨3, 5⟩), (2, ⟨5, 9⟩), (3, ⟨6, 18⟩), (1, ⟨7, 10⟩), (0, ⟨9, 1⟩),
      (1, ⟨10, 5⟩)], [⟨3, 1⟩, ⟨5, 1⟩, ⟨6, 1⟩, ⟨10, 1⟩]) := by decide +kernel
  obtain ⟨p, hp, hshape⟩ := Option.map_eq_some_iff.mp hwalk
  obtain ⟨tokens, hscan, hread⟩ := ofSource_ok.mp (Result.ok_of_toOption hp)
  obtain ⟨hnodes, hblocks⟩ := Prod.mk.inj hshape
  exact ⟨tokens, p, hnodes, hblocks, indented_of_scan hscan hread⟩

end Program

end Octet
