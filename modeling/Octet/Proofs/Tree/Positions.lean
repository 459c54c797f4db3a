import Octet.Proofs.Token.Tiling
import Octet.Proofs.Tree.WellFormed

/-!
The positions in a tree. They are positions of lexemes, one lexeme for each, and
listed in the order of the text they only increase: an operator between two
operands stands between theirs, and every other part of a tree stands in front
of the parts below it.

The position of a block is not among them. It is that of a step of indentation,
and no message is about a block.
-/

namespace Octet

namespace Expr

mutual

/-- The positions of an expression and of its parts, in the order of the text. -/
def positions : Expr → List Position
  | number _ p | boolean _ p | var _ p => [p]
  | negate e p => p :: e.positions
  | add l r p | compare _ l r p => l.positions ++ p :: r.positions
  | call _ args p => p :: positionsAll args

def positionsAll : List Expr → List Position
  | [] => []
  | e :: es => e.positions ++ positionsAll es

end

theorem position_mem_positions (e : Expr) : e.position ∈ e.positions := by
  cases e <;> simp [position, positions]

end Expr

namespace Stmt

mutual

def positions : Stmt → List Position
  | block body _ => positionsAll body
  | ifThen condition consequence p => p :: (condition.positions ++ consequence.positions)
  | print value p | declare _ _ value p | assign _ value p | ret value p => p :: value.positions
  | evaluate value => value.positions

def positionsAll : List Stmt → List Position
  | [] => []
  | s :: body => s.positions ++ positionsAll body

end

end Stmt

def Function.positions (f : Function) : List Position :=
  f.position :: (f.parameters.map Parameter.position ++ f.body.toStmt.positions)

theorem Function.position_mem_positions (f : Function) : f.position ∈ f.positions :=
  List.mem_cons_self

theorem Function.mem_positions_of_mem_cons {f : Function} {q : Position}
    (h : q ∈ f.position :: f.positions) : q ∈ f.positions := by
  rcases List.mem_cons.mp h with rfl | h
  · exact f.position_mem_positions
  · exact h

def Program.positions (p : Program) : List Position := p.functions.flatMap Function.positions

namespace Token

/-! ### Where lexemes stand -/

/-- Where the lexemes among the tokens stand. -/
def places (ts : List Token) : List Position := (ts.filter (·.kind.isLexeme)).map Token.position

@[simp] theorem places_append (us ts : List Token) :
    places (us ++ ts) = places us ++ places ts := by
  simp [places]

theorem places_lexeme {t : Token} (h : t.kind.isLexeme = true) (ts : List Token) :
    places (t :: ts) = t.position :: places ts := by
  simp [places, h]

theorem places_sublist_cons (t : Token) (ts : List Token) :
    (places ts).Sublist (places (t :: ts)) := by
  change (places ts).Sublist (places ([t] ++ ts))
  rw [places_append]
  exact List.sublist_append_right _ _

def UpTo (p q : Position) : Prop := p.line < q.line ∨ p.line = q.line ∧ p.column ≤ q.column

theorem UpTo.refl (p : Position) : UpTo p p := .inr ⟨rfl, Nat.le_refl _⟩

theorem Before.upTo {p q : Position} (h : Before p q) : UpTo p q := by
  unfold Before UpTo at *
  omega

theorem UpTo.trans {p q r : Position} (h : UpTo p q) (h' : UpTo q r) : UpTo p r := by
  unfold UpTo at *
  omega

theorem Before.trans_upTo {p q r : Position} (h : Before p q) (h' : UpTo q r) : Before p r := by
  unfold UpTo Before at *
  omega

/-- Each lexeme of a text stands behind the ones before it. -/
theorem Tiling.pairwise {p q : Position} {cs : List Char} {ts : List Token}
    (h : Tiling p cs ts q) : (ts.map Token.position).Pairwise Before ∧
      ∀ t ∈ ts, UpTo p t.position := by
  induction h with
  | nil => simp
  | @space p _ _ _ _ ih =>
      have hstep : UpTo p (p.right 1) := .inr ⟨rfl, Nat.le_add_right _ _⟩
      exact ⟨ih.1, fun t ht => hstep.trans (ih.2 t ht)⟩
  | @newline p _ _ _ _ ih =>
      have hstep : UpTo p ⟨p.line + 1, 1⟩ := .inl (Nat.lt_succ_self _)
      exact ⟨ih.1, fun t ht => hstep.trans (ih.2 t ht)⟩
  | @lexeme p _ _ w _ ts hlexeme _ _ ih =>
      -- A lexeme is not empty, so that whatever follows stands behind its first character.
      have hstep : Before p (p.right w.length) := by
        obtain ⟨c, tail, rfl, -⟩ := hlexeme.exists_cons
        exact .inr ⟨rfl, Nat.lt_add_of_pos_right (Nat.succ_pos _)⟩
      have hts : ∀ t ∈ ts, Before p t.position := fun t ht => hstep.trans_upTo (ih.2 t ht)
      constructor
      · refine List.pairwise_cons.mpr ⟨fun r hr => ?_, ih.1⟩
        obtain ⟨t, ht, rfl⟩ := List.mem_map.mp hr
        exact hts t ht
      · intro t ht
        rcases List.mem_cons.mp ht with rfl | ht
        · exact .refl _
        · exact (hts t ht).upTo

theorem pairwise_places_of_scan {source : String} {tokens : List Token}
    (h : scan source = .ok tokens) : (places tokens).Pairwise Before := by
  obtain ⟨q, before, htiling, -⟩ := tiling_of_scan h
  exact htiling.pairwise.1

end Token

namespace Grammar

open Token

/-! ### Positions come from lexemes -/

theorem isLexeme_of_kind {t : Token} {k : Kind} (h : t.kind = k) (hk : k.isLexeme = true) :
    t.kind.isLexeme = true := h ▸ hk

theorem DerivesComparison.isLexeme {t : Token} {c : Comparison} (h : DerivesComparison t c) :
    t.kind.isLexeme = true := by
  cases h with
  | equal h | notEqual h => exact isLexeme_of_kind h rfl

/-- An operator stands between the positions of its operands. -/
theorem sublist_operator {l r : List Position} {ts us : List Token} {op : Token}
    (hl : l.Sublist (places ts)) (hop : op.kind.isLexeme = true) (hr : r.Sublist (places us)) :
    (l ++ op.position :: r).Sublist (places (ts ++ op :: us)) := by
  rw [places_append, places_lexeme hop]
  exact hl.append (hr.cons_cons _)

/-- A part of some tokens in front of others. -/
theorem sublist_front {l : List Position} {ts : List Token} (h : l.Sublist (places ts))
    (us : List Token) : l.Sublist (places (ts ++ us)) := by
  rw [places_append]
  exact h.trans (List.sublist_append_left _ _)

/-- Tokens in front do not matter. -/
theorem sublist_behind {l : List Position} {ts : List Token} (h : l.Sublist (places ts))
    (us : List Token) : l.Sublist (places (us ++ ts)) := by
  rw [places_append]
  exact h.trans (List.sublist_append_right _ _)

/-- A part of a tree with its first token. -/
theorem sublist_first {l : List Position} {ts : List Token} {t : Token}
    (ht : t.kind.isLexeme = true) (h : l.Sublist (places ts)) :
    (t.position :: l).Sublist (places (t :: ts)) := by
  rw [places_lexeme ht]
  exact h.cons_cons _

mutual

theorem DerivesExpr.positions_sublist : ∀ {ts : List Token} {e : Expr}, DerivesExpr ts e →
    e.positions.Sublist (places ts)
  | _, _, .single h => h.positions_sublist
  | _, _, .compare h hop h' =>
      sublist_operator h.positions_sublist hop.isLexeme h'.positions_sublist

theorem DerivesAddition.positions_sublist : ∀ {ts : List Token} {e : Expr}, DerivesAddition ts e →
    e.positions.Sublist (places ts)
  | _, _, .single h => h.positions_sublist
  | _, _, .add h hop h' =>
      sublist_operator h.positions_sublist (isLexeme_of_kind hop rfl) h'.positions_sublist

theorem DerivesFactor.positions_sublist : ∀ {ts : List Token} {e : Expr}, DerivesFactor ts e →
    e.positions.Sublist (places ts)
  | _, _, .unaryPlus _ h => h.positions_sublist.trans (places_sublist_cons _ _)
  | _, _, .negate hop h => sublist_first (isLexeme_of_kind hop rfl) h.positions_sublist
  | _, _, .group _ h _ =>
      (sublist_front h.positions_sublist _).trans (places_sublist_cons _ _)
  | _, _, .number h _ | _, _, .true h | _, _, .false h | _, _, .var h =>
      sublist_first (isLexeme_of_kind h rfl) (List.nil_sublist _)
  | _, _, .callNone hf _ _ => sublist_first (isLexeme_of_kind hf rfl) (List.nil_sublist _)
  | _, _, .call hf _ h _ =>
      sublist_first (isLexeme_of_kind hf rfl)
        ((sublist_front h.positions_sublist _).trans (places_sublist_cons _ _))

theorem DerivesArguments.positions_sublist : ∀ {ts : List Token} {args : List Expr},
    DerivesArguments ts args → (Expr.positionsAll args).Sublist (places ts)
  | _, _, .single h => by simpa [Expr.positionsAll] using h.positions_sublist
  | _, _, .cons h _ h' => by
      rw [places_append]
      exact h.positions_sublist.append (h'.positions_sublist.trans (places_sublist_cons _ _))

end

mutual

theorem DerivesStmt.positions_sublist : ∀ {ts : List Token} {s : Stmt}, DerivesStmt ts s →
    s.positions.Sublist (places ts)
  | _, _, .ifThen hstart h _ _ hbody => by
      apply sublist_first (isLexeme_of_kind hstart rfl)
      rw [places_append]
      apply h.positions_sublist.append
      exact hbody.positions_sublist.trans
        ((places_sublist_cons _ _).trans (places_sublist_cons _ _))
  | _, _, .print hstart _ h _ _ =>
      sublist_first (isLexeme_of_kind hstart rfl)
        ((sublist_front h.positions_sublist _).trans (places_sublist_cons _ _))
  | _, _, .declare hstart _ _ _ _ h _ =>
      sublist_first (isLexeme_of_kind hstart rfl)
        (sublist_behind (sublist_front h.positions_sublist _) [_, _, _, _])
  | _, _, .assign hx _ h _ =>
      sublist_first (isLexeme_of_kind hx rfl)
        ((sublist_front h.positions_sublist _).trans (places_sublist_cons _ _))
  | _, _, .ret hstart h _ =>
      sublist_first (isLexeme_of_kind hstart rfl) (sublist_front h.positions_sublist _)
  | _, _, .evaluate h _ => sublist_front h.positions_sublist _

theorem DerivesStmts.positions_sublist : ∀ {ts : List Token} {body : List Stmt},
    DerivesStmts ts body → (Stmt.positionsAll body).Sublist (places ts)
  | _, _, .nil => List.nil_sublist _
  | _, _, .cons h h' => by
      rw [places_append]
      exact h.positions_sublist.append h'.positions_sublist

theorem DerivesBlock.positions_sublist : ∀ {ts : List Token} {b : Block}, DerivesBlock ts b →
    b.toStmt.positions.Sublist (places ts)
  | _, _, .indented _ h _ =>
      (sublist_front h.positions_sublist _).trans (places_sublist_cons _ _)

end

theorem DerivesParameters.positions_sublist {ts : List Token} {ps : List Parameter}
    (h : DerivesParameters ts ps) : (ps.map Parameter.position).Sublist (places ts) := by
  induction h with
  | single hx _ _ => exact sublist_first (isLexeme_of_kind hx rfl) (List.nil_sublist _)
  | @cons _ _ _ _ colon t comma hx _ _ _ _ ih =>
      exact sublist_first (isLexeme_of_kind hx rfl) (sublist_behind ih [colon, t, comma])

theorem DerivesFunction.positions_sublist {ts : List Token} {f : Function}
    (h : DerivesFunction ts f) : f.positions.Sublist (places ts) := by
  cases h with
  | @define ts us ps _ body _ name lp rp arrow t colon nl hstart _ _ hps _ _ _ _ _ hbody =>
      have hparameters : (ps.map Parameter.position).Sublist (places ts) := by
        cases hps with
        | none => exact List.nil_sublist _
        | some hps => exact hps.positions_sublist
      have hrest : (ps.map Parameter.position ++ body.toStmt.positions).Sublist
          (places (ts ++ rp :: arrow :: t :: colon :: nl :: us)) := by
        rw [places_append]
        exact hparameters.append (sublist_behind hbody.positions_sublist [_, _, _, _, _])
      exact sublist_first (isLexeme_of_kind hstart rfl) (sublist_behind hrest [_, _])

theorem DerivesFunctions.positions_sublist {ts : List Token} {fs : List Function}
    (h : DerivesFunctions ts fs) : (fs.flatMap Function.positions).Sublist (places ts) := by
  induction h with
  | nil => exact List.nil_sublist _
  | cons h _ ih =>
      rw [List.flatMap_cons, places_append]
      exact h.positions_sublist.append ih

end Grammar

namespace Program

open Grammar

/-! ### Programs of texts -/

/-- The tokens of a text make the program that the grammar derives from them. -/
theorem ofTokens_ok_of_scan {source : String} {tokens : List Token} {p : Program}
    (hscan : Token.scan source = .ok tokens) :
    ofTokens tokens = .ok p ↔ DerivesProgram tokens p := by
  obtain ⟨before, q, rfl⟩ := Token.exists_textEnd_of_scan hscan
  have hends := Token.kind_ne_eof_of_scan hscan
  rw [ofTokens_ok (by rwa [List.dropLast_concat]), ← derivesProgram_iff, ofTokens_append_last,
    withEnd, List.getLast?_concat]
  rfl

theorem ofTokens_derives {source : String} {tokens : List Token} {p : Program}
    (hscan : Token.scan source = .ok tokens) (h : ofTokens tokens = .ok p) :
    DerivesProgram tokens p :=
  (ofTokens_ok_of_scan hscan).mp h

/-- The positions of a program are those of lexemes of its text. -/
theorem positions_sublist {tokens : List Token} {p : Program} (h : DerivesProgram tokens p) :
    p.positions.Sublist (Token.places tokens) := by
  cases h with
  | plain hfs _ _ => exact sublist_front hfs.positions_sublist _
  | behindLineEnd _ hfs _ =>
      exact (sublist_front hfs.positions_sublist _).trans (Token.places_sublist_cons _ _)

/-- In the order of the text, positions increase. -/
theorem pairwise_positions_of_ofSource {source : String} {p : Program}
    (h : ofSource source = .ok p) : p.positions.Pairwise Token.Before := by
  obtain ⟨tokens, hscan, hread⟩ := ofSource_ok.mp h
  exact (Token.pairwise_places_of_scan hscan).sublist
    (positions_sublist (ofTokens_derives hscan hread))

end Program

end Octet
