import Octet.Proofs.Token.Tiling
import Octet.Proofs.Tree.WellFormed
import Octet.Proofs.Z80.Reading

/-!
Trees written as texts. A statement takes a line, a block is four spaces deeper
than the line that it belongs to, and the operands of the operators stand in
parentheses, so that nothing hangs on how tightly an operator binds.

A line that is written is cut into tokens again from which the grammar derives
what was written, but for the positions.
-/

namespace Octet

/-! ### Trees without positions -/

namespace Expr

mutual

/-- The expression without its positions. -/
def bare : Expr → Expr
  | number n _ => number n default
  | boolean b _ => boolean b default
  | var x _ => var x default
  | negate e _ => negate e.bare default
  | add l r _ => add l.bare r.bare default
  | compare c l r _ => compare c l.bare r.bare default
  | call f args _ => call f (bareAll args) default

def bareAll : List Expr → List Expr
  | [] => []
  | e :: es => e.bare :: bareAll es

end

end Expr

namespace Stmt

mutual

def bare : Stmt → Stmt
  | block body _ => block (bareAll body) default
  | ifThen condition consequence _ => ifThen condition.bare consequence.bare default
  | print value _ => print value.bare default
  | declare x type value _ => declare x type value.bare default
  | assign x value _ => assign x value.bare default
  | ret value _ => ret value.bare default
  | evaluate value => evaluate value.bare

def bareAll : List Stmt → List Stmt
  | [] => []
  | s :: body => s.bare :: bareAll body

end

end Stmt

def Parameter.bare (p : Parameter) : Parameter := { p with position := default }

def Function.bare (f : Function) : Function :=
  ⟨f.name, f.parameters.map Parameter.bare, f.returns, ⟨Stmt.bareAll f.body.body, default⟩, default⟩

def Program.bare (p : Program) : Program := ⟨p.functions.map Function.bare, default⟩

/-! ### Texts -/

def Comparison.sign : Comparison → List Char
  | equal => ['=', '=']
  | notEqual => ['!', '=']

namespace Expr

def parens (text : List Char) : List Char := '(' :: (text ++ [')'])

mutual

def render : Expr → List Char
  | number n _ => (toString n.toNat).toList
  | boolean b _ => (if b then "true" else "false").toList
  | var x _ => x.toList
  | negate e _ => '-' :: parens e.render
  | add l r _ => parens l.render ++ ' ' :: '+' :: ' ' :: parens r.render
  | compare c l r _ => parens l.render ++ ' ' :: (c.sign ++ ' ' :: parens r.render)
  | call f args _ => f.toList ++ parens (renderAll args)

def renderAll : List Expr → List Char
  | [] => []
  | [e] => e.render
  | e :: es => e.render ++ ',' :: ' ' :: renderAll es

end

end Expr

/-- A text behind the spaces of a depth. -/
def indented (depth : Nat) (text : List Char) : List Char :=
  List.replicate (Token.indentWidth * depth) ' ' ++ text

namespace Stmt

mutual

def render (depth : Nat) : Stmt → List (List Char)
  | block body _ => renderAll depth body
  | ifThen condition consequence _ =>
      indented depth ("if".toList ++ ' ' :: (condition.render ++ [':'])) ::
        consequence.render (depth + 1)
  | print value _ => [indented depth ("print".toList ++ Expr.parens value.render)]
  | declare x type value _ =>
      [indented depth ("let".toList ++ ' ' :: (x.toList ++ ':' :: ' ' ::
        (type.text.toList ++ ' ' :: '=' :: ' ' :: value.render)))]
  | assign x value _ => [indented depth (x.toList ++ ' ' :: '=' :: ' ' :: value.render)]
  | ret value _ => [indented depth ("return".toList ++ ' ' :: value.render)]
  | evaluate value => [indented depth value.render]

def renderAll (depth : Nat) : List Stmt → List (List Char)
  | [] => []
  | s :: body => s.render depth ++ renderAll depth body

end

end Stmt

def Parameter.render (p : Parameter) : List Char :=
  p.name.toList ++ ':' :: ' ' :: p.type.text.toList

def Parameter.renderAll : List Parameter → List Char
  | [] => []
  | [p] => p.render
  | p :: ps => p.render ++ ',' :: ' ' :: renderAll ps

namespace Function

def header (f : Function) : List Char :=
  "def".toList ++ ' ' :: (f.name.toList ++ (Expr.parens (Parameter.renderAll f.parameters) ++
    ' ' :: '-' :: '>' :: ' ' :: (f.returns.text.toList ++ [':'])))

def render (f : Function) : List (List Char) := f.header :: Stmt.renderAll 1 f.body.body

end Function

/-- The text of the program. Every line has an end. -/
def Program.render (p : Program) : String :=
  String.ofList ((p.functions.flatMap Function.render).flatMap (· ++ ['\n']))

namespace Token

/-! ### Pieces of a line -/

/-- The text is cut into tokens with the property wherever it stands, unless a
character follows that its last lexeme would take in. -/
def Spells (stop : Char → Bool) (text : List Char) (D : List Token → Prop) : Prop :=
  ∀ p rest ts, (∀ c ∈ rest.head?, stop c = false) → ScansLine (p.right text.length) rest ts →
    ∃ us, D us ∧ ScansLine p (text ++ rest) (us ++ ts)

/-- What must not follow one text does not follow it if the second text does,
with whatever may follow that one. -/
def Parts (goes : Char → Bool) (text : List Char) (stop : Char → Bool) : Prop :=
  match text with
  | [] => ∀ c, stop c = false → goes c = false
  | c :: _ => goes c = false

theorem Parts.head {goes stop : Char → Bool} {text rest : List Char} (h : Parts goes text stop)
    (hrest : ∀ c ∈ rest.head?, stop c = false) : ∀ c ∈ (text ++ rest).head?, goes c = false := by
  cases text with
  | nil => exact fun c hc => h c (hrest c hc)
  | cons c text =>
      rintro d ⟨⟩
      exact h

variable {stop goes : Char → Bool} {text text' : List Char} {D D' : List Token → Prop}

theorem Spells.mono (h : Spells stop text D) (hD : ∀ us, D us → D' us) : Spells stop text D' := by
  intro p rest ts hrest hts
  obtain ⟨us, hus, hline⟩ := h p rest ts hrest hts
  exact ⟨us, hD us hus, hline⟩

theorem Spells.nil : Spells stop [] (· = []) :=
  fun _ _ _ _ hts => ⟨[], rfl, hts⟩

theorem Spells.space (h : Spells stop text D) : Spells stop (' ' :: text) D := by
  intro p rest ts hrest hts
  obtain ⟨us, hus, hline⟩ := h (p.right 1) rest ts hrest (by
    rwa [right_right, Nat.add_comm, ← List.length_cons])
  exact ⟨us, hus, .space hline⟩

theorem Spells.token {k : Kind} {w : List Char} (h : Spells stop text D) (hw : Lexeme k w)
    (hparts : Parts k.goesOn text stop) :
    Spells stop (w ++ text) fun us => ∃ p vs, us = ⟨k, String.ofList w, p⟩ :: vs ∧ D vs := by
  intro p rest ts hrest hts
  obtain ⟨us, hus, hline⟩ := h (p.right w.length) rest ts hrest (by
    rwa [right_right, ← List.length_append])
  refine ⟨_, ⟨p, us, rfl, hus⟩, ?_⟩
  rw [List.append_assoc]
  exact .lexeme hw (hparts.head hrest) hline

theorem Spells.append (h : Spells goes text D) (h' : Spells stop text' D')
    (hparts : Parts goes text' stop) :
    Spells stop (text ++ text') fun us => ∃ vs ws, us = vs ++ ws ∧ D vs ∧ D' ws := by
  intro p rest ts hrest hts
  -- The second text comes first, since the first one is followed by what it is cut into.
  obtain ⟨ws, hws, hline⟩ := h' (p.right text.length) rest ts hrest (by
    rwa [right_right, ← List.length_append])
  obtain ⟨vs, hvs, hline⟩ := h p (text' ++ rest) (ws ++ ts) (hparts.head hrest) hline
  refine ⟨vs ++ ws, ⟨vs, ws, rfl, hvs, hws⟩, ?_⟩
  rwa [List.append_assoc, List.append_assoc]

/-- A text that is the whole line. -/
theorem Spells.line (h : Spells stop text D) (p : Position) : ∃ us, D us ∧ ScansLine p text us := by
  obtain ⟨us, hus, hline⟩ := h p [] [] (by simp) .nil
  exact ⟨us, hus, by simpa using hline⟩

theorem parts_of_false (h : ∀ c, goes c = false) : Parts goes text stop := by
  cases text with
  | nil => exact fun c _ => h c
  | cons c text => exact h c

/-- A lexeme on its own. -/
theorem Spells.lexeme {k : Kind} {w : List Char} (hw : Lexeme k w)
    (h : ∀ c, stop c = false → k.goesOn c = false) :
    Spells stop w fun us => ∃ p, us = [⟨k, String.ofList w, p⟩] := by
  have hnil : Spells stop [] (· = []) := .nil
  have hspells := hnil.token hw h
  rw [List.append_nil] at hspells
  apply hspells.mono
  rintro us ⟨p, vs, rfl, rfl⟩
  exact ⟨p, rfl⟩

/-- Nothing that follows a closing parenthesis belongs to it. -/
theorem Spells.parens (h : Spells continuesWord text D) : Spells stop (Expr.parens text) fun us =>
    ∃ lp vs rp, us = lp :: (vs ++ [rp]) ∧ lp.kind = .leftParen ∧ D vs ∧ rp.kind = .rightParen := by
  have hclose : Spells stop [')'] _ :=
    .lexeme (lexeme_sign (k := .rightParen) (by decide) rfl) fun _ _ => rfl
  have hopen := (h.append hclose rfl).token (lexeme_sign (k := .leftParen) (by decide) rfl)
    (parts_of_false fun _ => rfl)
  apply hopen.mono
  rintro us ⟨p, ws, rfl, vs, _, rfl, hvs, q, rfl⟩
  exact ⟨_, vs, _, rfl, rfl, hvs, rfl⟩

end Token

open Token Grammar

/-! ### Expressions -/

theorem isDigit_of_continuesWord {c : Char} (h : continuesWord c = false) : c.isDigit = false := by
  simp only [continuesWord, Char.isAlphanum, Bool.or_eq_false_iff] at h
  exact h.1.2

theorem Comparison.exists_lexeme (c : Comparison) : ∃ k, Lexeme k c.sign ∧
    k.goesOn ' ' = false ∧ ∀ w p, DerivesComparison ⟨k, w, p⟩ c := by
  cases c with
  | equal => exact ⟨.equal, lexeme_sign (by decide) rfl, rfl, fun _ _ => .equal rfl⟩
  | notEqual => exact ⟨.notEqual, lexeme_sign (by decide) rfl, rfl, fun _ _ => .notEqual rfl⟩

theorem lexeme_number (n : UInt8) : Lexeme .number (toString n.toNat).toList := by
  rw [Z80.toList_toString]
  exact .number (by simp [Nat.toDigits_ne_nil]) (Z80.isDigit_toDigits n.toNat)

theorem spells_group (stop : Char → Bool) {e : Expr}
    (h : Spells continuesWord e.render fun us => ∃ e', DerivesExpr us e' ∧ e'.bare = e.bare) :
    Spells stop (Expr.parens e.render) fun us => ∃ e', DerivesFactor us e' ∧ e'.bare = e.bare := by
  apply h.parens.mono
  rintro us ⟨lp, vs, rp, rfl, hlp, ⟨e', he, hbare⟩, hrp⟩
  exact ⟨e', .group hlp he hrp, hbare⟩

mutual

/-- The text of an expression is cut into tokens that derive it. -/
theorem Expr.spells : (e : Expr) → e.WellFormed →
    Spells continuesWord e.render fun us => ∃ e', DerivesExpr us e' ∧ e'.bare = e.bare
  | .number n p, _ => by
      apply (Spells.lexeme (lexeme_number n) fun c => isDigit_of_continuesWord).mono
      rintro us ⟨q, rfl⟩
      refine ⟨.number n q, .single (.single (.number rfl ?_)), rfl⟩
      rw [String.ofList_toList]
      exact byte?_eq_some_iff.mp (Z80.byte?_toString n)
  | .boolean true p, _ => by
      apply (Spells.lexeme (.keyword (k := .kwTrue) (w := "true") (by decide)) fun c => id).mono
      rintro us ⟨q, rfl⟩
      exact ⟨.boolean true q, .single (.single (.true rfl)), rfl⟩
  | .boolean false p, _ => by
      apply (Spells.lexeme (.keyword (k := .kwFalse) (w := "false") (by decide)) fun c => id).mono
      rintro us ⟨q, rfl⟩
      exact ⟨.boolean false q, .single (.single (.false rfl)), rfl⟩
  | .var x p, h => by
      apply (Spells.lexeme (lexeme_identifier_iff.mpr h) fun c => id).mono
      rintro us ⟨q, rfl⟩
      refine ⟨.var x q, ?_, rfl⟩
      rw [String.ofList_toList]
      exact .single (.single (.var rfl))
  | .negate e p, h => by
      apply ((spells_group _ (Expr.spells e h)).token
        (lexeme_sign (k := .minus) (by decide) rfl) rfl).mono
      rintro us ⟨q, vs, rfl, e', he, hbare⟩
      refine ⟨.negate e' q, .single (.single (.negate rfl he)), ?_⟩
      simp only [Expr.bare, hbare]
  | .add l r p, h => by
      have hright := ((spells_group continuesWord (Expr.spells r h.2)).space.token
        (lexeme_sign (k := .plus) (by decide) rfl) rfl).space
      apply ((spells_group continuesWord (Expr.spells l h.1)).append hright rfl).mono
      rintro us ⟨vs, _, rfl, ⟨l', hl, hlbare⟩, q, ws, rfl, r', hr, hrbare⟩
      refine ⟨.add l' r' q, .single (.add hl rfl (.single hr)), ?_⟩
      simp only [Expr.bare, hlbare, hrbare]
  | .compare c l r p, h => by
      obtain ⟨k, hk, hsign, hc⟩ := c.exists_lexeme
      have hright := ((spells_group continuesWord (Expr.spells r h.2)).space.token hk hsign).space
      apply ((spells_group continuesWord (Expr.spells l h.1)).append hright rfl).mono
      rintro us ⟨vs, _, rfl, ⟨l', hl, hlbare⟩, q, ws, rfl, r', hr, hrbare⟩
      refine ⟨.compare c l' r' q, .compare (.single (.single hl)) (hc _ _) (.single hr), ?_⟩
      simp only [Expr.bare, hlbare, hrbare]
  | .call f [] p, h => by
      have hnil : Spells continuesWord [] (· = []) := .nil
      apply ((hnil.parens).token (lexeme_identifier_iff.mpr h.1) rfl).mono
      rintro us ⟨q, _, rfl, lp, _, rp, rfl, hlp, rfl, hrp⟩
      refine ⟨.call f [] q, ?_, rfl⟩
      rw [String.ofList_toList]
      exact .single (.single (.callNone rfl hlp hrp))
  | .call f (e :: es) p, h => by
      have hargs := Expr.spellsAll (e :: es) (List.cons_ne_nil e es) h.2
      apply (hargs.parens.token (lexeme_identifier_iff.mpr h.1) rfl).mono
      rintro us ⟨q, _, rfl, lp, vs, rp, rfl, hlp, ⟨args, hargs, hbare⟩, hrp⟩
      refine ⟨.call f args q, ?_, by simp only [Expr.bare, hbare]⟩
      rw [String.ofList_toList]
      exact .single (.single (.call rfl hlp hargs hrp))

theorem Expr.spellsAll : (args : List Expr) → args ≠ [] → Expr.WellFormedAll args →
    Spells continuesWord (Expr.renderAll args) fun us =>
      ∃ args', DerivesArguments us args' ∧ Expr.bareAll args' = Expr.bareAll args
  | [], hne, _ => absurd rfl hne
  | [e], _, h => by
      apply (Expr.spells e h.1).mono
      rintro us ⟨e', he, hbare⟩
      exact ⟨[e'], .single he, by simp only [Expr.bareAll, hbare]⟩
  | e :: f :: es, _, h => by
      have hmore := (Expr.spellsAll (f :: es) (List.cons_ne_nil f es) h.2).space.token
        (lexeme_sign (k := .comma) (by decide) rfl) rfl
      apply ((Expr.spells e h.1).append hmore rfl).mono
      rintro us ⟨vs, _, rfl, ⟨e', he, hbare⟩, q, ws, rfl, args, hargs, hmore⟩
      refine ⟨e' :: args, .cons he rfl hargs, ?_⟩
      rw [Expr.bareAll, Expr.bareAll, hbare, hmore]

end

/-! ### Lines -/

/-- The text begins with something else than a space. -/
def Inked (text : List Char) : Prop := ∃ c cs, text = c :: cs ∧ c ≠ ' '

theorem Inked.append {text : List Char} (h : Inked text) (more : List Char) :
    Inked (text ++ more) := by
  obtain ⟨c, cs, rfl, hc⟩ := h
  exact ⟨c, cs ++ more, rfl, hc⟩

theorem Ty.exists_lexeme {type : Ty} (h : type.WellFormed) :
    ∃ k, Lexeme k type.text.toList ∧ k.goesOn = continuesWord ∧
      ∀ p, DerivesType ⟨k, String.ofList type.text.toList, p⟩ type := by
  cases type with
  | void => exact ⟨.kwVoid, .keyword (by decide), rfl, fun _ => .void rfl⟩
  | u8 => exact ⟨.kwU8, .keyword (by decide), rfl, fun _ => .u8 rfl⟩
  | i8 => exact ⟨.kwI8, .keyword (by decide), rfl, fun _ => .i8 rfl⟩
  | bool => exact ⟨.kwBool, .keyword (by decide), rfl, fun _ => .bool rfl⟩
  | named x =>
      refine ⟨.identifier, lexeme_identifier_iff.mpr h, rfl, fun p => ?_⟩
      rw [String.ofList_toList]
      exact .named rfl
  | literal | function _ _ => cases h

theorem Expr.inked : (e : Expr) → e.WellFormed → Inked e.render
  | .number n _, _ => (lexeme_number n).exists_cons
  | .boolean b _, _ => by cases b <;> exact ⟨_, _, rfl, by decide⟩
  | .var x _, h => (lexeme_identifier_iff.mpr h).exists_cons
  | .negate _ _, _ | .add _ _ _, _ | .compare _ _ _ _, _ => ⟨_, _, rfl, by decide⟩
  | .call _ _ _, h => Inked.append (lexeme_identifier_iff.mpr h.1).exists_cons _

/-- What the line of a statement is cut into, if the statement ends with it. -/
def DerivesLine (s : Stmt) (us : List Token) : Prop :=
  ∀ nl : Token, nl.kind = .newline → ∃ s', DerivesStmt (us ++ [nl]) s' ∧ s'.bare = s.bare

theorem spells_print {value : Expr} (h : value.WellFormed) (p : Position) :
    Spells continuesWord ("print".toList ++ Expr.parens value.render)
      (DerivesLine (.print value p)) := by
  apply ((value.spells h).parens.token (.keyword (k := .kwPrint) (by decide)) rfl).mono
  rintro us ⟨q, _, rfl, lp, vs, rp, rfl, hlp, ⟨e, he, hbare⟩, hrp⟩ nl hnl
  refine ⟨.print e q, ?_, by simp only [Stmt.bare, hbare]⟩
  simpa using DerivesStmt.print rfl hlp he hrp hnl

/-- The sign of an assignment and the value behind it. -/
theorem spells_assigned {value : Expr} (h : value.WellFormed) :
    Spells continuesWord (' ' :: '=' :: ' ' :: value.render) fun us => ∃ sign vs e,
      us = sign :: vs ∧ sign.kind = .assign ∧ DerivesExpr vs e ∧ e.bare = value.bare := by
  apply ((value.spells h).space.token (lexeme_sign (k := .assign) (by decide) rfl) rfl).space.mono
  rintro us ⟨_, vs, rfl, e, he, hbare⟩
  exact ⟨_, vs, e, rfl, rfl, he, hbare⟩

theorem spells_declare {x : String} {type : Ty} {value : Expr} (hx : IsName x)
    (htype : type.WellFormed) (h : value.WellFormed) (p : Position) :
    Spells continuesWord ("let".toList ++ ' ' :: (x.toList ++ ':' :: ' ' ::
      (type.text.toList ++ ' ' :: '=' :: ' ' :: value.render)))
      (DerivesLine (.declare x type value p)) := by
  obtain ⟨k, hk, hgoes, hderives⟩ := type.exists_lexeme htype
  have htyped := ((spells_assigned h).token hk (by rw [hgoes]; rfl)).space.token
    (lexeme_sign (k := .colon) (by decide) rfl) rfl
  have hname := (htyped.token (lexeme_identifier_iff.mpr hx) rfl).space
  apply (hname.token (.keyword (k := .kwLet) (by decide)) rfl).mono
  rintro us ⟨_, _, rfl, _, _, rfl, _, _, rfl, _, _, rfl, sign, ts, e, rfl, hsign, he, hbare⟩ nl hnl
  refine ⟨_, .declare rfl rfl rfl (hderives _) hsign he hnl, ?_⟩
  simp only [Stmt.bare, String.ofList_toList, hbare]

theorem spells_assign {x : String} {value : Expr} (hx : IsName x) (h : value.WellFormed)
    (p : Position) : Spells continuesWord (x.toList ++ ' ' :: '=' :: ' ' :: value.render)
      (DerivesLine (.assign x value p)) := by
  apply ((spells_assigned h).token (lexeme_identifier_iff.mpr hx) rfl).mono
  rintro us ⟨_, _, rfl, sign, ts, e, rfl, hsign, he, hbare⟩ nl hnl
  refine ⟨_, .assign rfl hsign he hnl, ?_⟩
  simp only [Stmt.bare, String.ofList_toList, hbare]

theorem spells_ret {value : Expr} (h : value.WellFormed) (p : Position) :
    Spells continuesWord ("return".toList ++ ' ' :: value.render) (DerivesLine (.ret value p)) := by
  apply ((value.spells h).space.token (.keyword (k := .kwReturn) (by decide)) rfl).mono
  rintro us ⟨q, ts, rfl, e, he, hbare⟩ nl hnl
  refine ⟨_, .ret rfl he hnl, ?_⟩
  simp only [Stmt.bare, hbare]

theorem spells_evaluate {value : Expr} (h : value.WellFormed) :
    Spells continuesWord value.render (DerivesLine (.evaluate value)) := by
  apply (value.spells h).mono
  rintro us ⟨e, he, hbare⟩ nl hnl
  refine ⟨_, .evaluate he hnl, ?_⟩
  simp only [Stmt.bare, hbare]

/-- The line of a condition begins a statement that a block ends. -/
theorem spells_if {condition : Expr} (h : condition.WellFormed) :
    Spells continuesWord ("if".toList ++ ' ' :: (condition.render ++ [':'])) fun us =>
      ∃ start ts colon e, us = start :: (ts ++ [colon]) ∧ start.kind = .kwIf ∧ DerivesExpr ts e ∧
        e.bare = condition.bare ∧ colon.kind = .colon := by
  have hcolon : Spells continuesWord [':'] _ :=
    .lexeme (lexeme_sign (k := .colon) (by decide) rfl) fun _ _ => rfl
  apply (((condition.spells h).append hcolon rfl).space.token
    (.keyword (k := .kwIf) (by decide)) rfl).mono
  rintro us ⟨_, _, rfl, ts, _, rfl, ⟨e, he, hbare⟩, _, rfl⟩
  exact ⟨_, ts, _, e, rfl, rfl, he, hbare, rfl⟩

/-! ### Headers -/

theorem spells_parameter {q : Parameter} (hname : IsName q.name) (htype : q.type.WellFormed) :
    Spells continuesWord q.render fun us => ∃ x colon t, us = [x, colon, t] ∧
      x.kind = .identifier ∧ x.value = q.name ∧ colon.kind = .colon ∧ DerivesType t q.type := by
  obtain ⟨k, hk, hgoes, hderives⟩ := q.type.exists_lexeme htype
  have htype := (Spells.lexeme hk (by rw [hgoes]; exact fun _ => id)).space
  apply ((htype.token (lexeme_sign (k := .colon) (by decide) rfl) rfl).token
    (lexeme_identifier_iff.mpr hname) rfl).mono
  rintro us ⟨_, _, rfl, _, _, rfl, _, rfl⟩
  exact ⟨_, _, _, rfl, rfl, String.ofList_toList, rfl, hderives _⟩

theorem spells_parameters : (qs : List Parameter) → qs ≠ [] →
    (∀ q ∈ qs, IsName q.name ∧ q.type.WellFormed) →
    Spells continuesWord (Parameter.renderAll qs) fun us =>
      ∃ qs', DerivesParameters us qs' ∧ qs'.map Parameter.bare = qs.map Parameter.bare
  | [], hne, _ => absurd rfl hne
  | [q], _, h => by
      obtain ⟨hname, htype⟩ := h q (by simp)
      apply (spells_parameter hname htype).mono
      rintro us ⟨x, colon, t, rfl, hx, hvalue, hcolon, ht⟩
      refine ⟨_, .single hx hcolon ht, ?_⟩
      simp [Parameter.bare, hvalue]
  | q :: r :: qs, _, h => by
      obtain ⟨hname, htype⟩ := h q (by simp)
      have hmore := (spells_parameters (r :: qs) (List.cons_ne_nil r qs)
        fun s hs => h s (List.mem_cons_of_mem q hs)).space.token
        (lexeme_sign (k := .comma) (by decide) rfl) rfl
      apply ((spells_parameter hname htype).append hmore rfl).mono
      rintro us ⟨_, _, rfl, ⟨x, colon, t, rfl, hx, hvalue, hcolon, ht⟩, _, ts, rfl, qs', hqs, hbare⟩
      refine ⟨_, .cons hx hcolon ht rfl hqs, ?_⟩
      simp [Parameter.bare, hvalue, hbare]

theorem spells_parameterList {qs : List Parameter}
    (h : ∀ q ∈ qs, IsName q.name ∧ q.type.WellFormed) :
    Spells continuesWord (Parameter.renderAll qs) fun us =>
      ∃ qs', DerivesParameterList us qs' ∧ qs'.map Parameter.bare = qs.map Parameter.bare := by
  cases qs with
  | nil =>
      apply Spells.nil.mono
      rintro us rfl
      exact ⟨[], .none, rfl⟩
  | cons q qs =>
      apply (spells_parameters (q :: qs) (List.cons_ne_nil q qs) h).mono
      rintro us ⟨qs', hqs, hbare⟩
      exact ⟨qs', .some hqs, hbare⟩

/-- The header of a function begins what a block ends. -/
theorem spells_header {f : Function} (h : f.WellFormed) :
    Spells continuesWord f.header fun us => ∀ (nl : Token) (bs : List Token) (b : Block),
      nl.kind = .newline → DerivesBlock bs b → Stmt.bareAll b.body = Stmt.bareAll f.body.body →
      ∃ f', DerivesFunction (us ++ nl :: bs) f' ∧ f'.bare = f.bare := by
  obtain ⟨k, hk, hgoes, hderives⟩ := f.returns.exists_lexeme h.returns
  have hcolon : Spells continuesWord [':'] _ :=
    .lexeme (lexeme_sign (k := .colon) (by decide) rfl) fun _ _ => rfl
  have hreturns := ((hcolon.token hk (by rw [hgoes]; rfl)).space.token
    (lexeme_sign (k := .arrow) (by decide) rfl) rfl).space
  have hstop : Spells continuesWord (Expr.parens (Parameter.renderAll f.parameters)) _ :=
    (spells_parameterList h.parameters).parens
  have hname := ((hstop.append hreturns rfl).token (lexeme_identifier_iff.mpr h.name) rfl).space
  apply (hname.token (.keyword (k := .kwDef) (by decide)) rfl).mono
  rintro us ⟨p, _, rfl, _, _, rfl, _, _, rfl, ⟨lp, ts, rp, rfl, hlp, ⟨qs, hqs, hbare⟩, hrp⟩,
    _, _, rfl, _, _, rfl, _, rfl⟩ nl bs b hnl hb hbody
  refine ⟨⟨String.ofList f.name.toList, qs, f.returns, b, p⟩, ?_, ?_⟩
  · simp only [List.cons_append, List.append_assoc, List.nil_append]
    exact .define rfl rfl hlp hqs hrp rfl (hderives _) rfl hnl hb
  · simp only [Function.bare, String.ofList_toList, hbare, hbody]

end Octet
