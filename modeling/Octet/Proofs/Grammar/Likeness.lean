import Mathlib.Data.List.Forall2
import Octet.Proofs.Grammar.Rules
import Octet.Proofs.Tree.Rendering

/-!
Tokens in the place of others. The grammar looks at the kinds of tokens and, of
their values, only at whether a number is a byte. So what it derives from some
tokens it also derives from others of the same kinds, if bytes stay bytes; and
if the values are the same too, the trees differ in their positions only. In a
row that it derives something from, every number is a byte.
-/

namespace Octet.Grammar

/-- The second token can stand where the first one does. Whether it also has the
same value is a matter of its own. -/
structure StandsFor (same : Prop) (t t' : Token) : Prop where
  kind : t'.kind = t.kind
  byte : ∀ b, t.kind = .number → SpellsByte t.value b → ∃ b', SpellsByte t'.value b'
  value : same → t'.value = t.value

theorem forall₂_append_left_iff {α β : Type} {R : α → β → Prop} {us vs : List α} {ws : List β} :
    List.Forall₂ R (us ++ vs) ws ↔
      ∃ us' vs', List.Forall₂ R us us' ∧ List.Forall₂ R vs vs' ∧ ws = us' ++ vs' := by
  constructor
  · induction us generalizing ws with
    | nil => exact fun h => ⟨[], ws, .nil, h, rfl⟩
    | cons u us ih =>
        intro h
        obtain ⟨w, ws, hw, hws, rfl⟩ := List.forall₂_cons_left_iff.mp h
        obtain ⟨us', vs', hus, hvs, rfl⟩ := ih hws
        exact ⟨w :: us', vs', .cons hw hus, hvs, rfl⟩
  · rintro ⟨us', vs', hus, hvs, rfl⟩
    exact List.rel_append hus hvs

variable {same : Prop}

/-! ### Expressions -/

theorem DerivesComparison.standsFor {t t' : Token} {c : Comparison} (h : DerivesComparison t c)
    (ht : StandsFor same t t') : DerivesComparison t' c := by
  cases h with
  | equal h => exact .equal (ht.kind.trans h)
  | notEqual h => exact .notEqual (ht.kind.trans h)

mutual

theorem DerivesExpr.standsFor {ts ts' : List Token} {e : Expr} : DerivesExpr ts e →
    List.Forall₂ (StandsFor same) ts ts' →
    ∃ e', DerivesExpr ts' e' ∧ (same → e'.bare = e.bare)
  | .single h, hts => by
      obtain ⟨e', he, hbare⟩ := h.standsFor hts
      exact ⟨e', .single he, hbare⟩
  | .compare h hop hright, hts => by
      obtain ⟨us', _, hus, hrest, rfl⟩ := forall₂_append_left_iff.mp hts
      obtain ⟨op', vs', hop', hvs, rfl⟩ := List.forall₂_cons_left_iff.mp hrest
      obtain ⟨l', hl, hlbare⟩ := h.standsFor hus
      obtain ⟨r', hr, hrbare⟩ := hright.standsFor hvs
      refine ⟨_, .compare hl (hop.standsFor hop') hr, fun hsame => ?_⟩
      simp only [Expr.bare, hlbare hsame, hrbare hsame]

theorem DerivesAddition.standsFor {ts ts' : List Token} {e : Expr} : DerivesAddition ts e →
    List.Forall₂ (StandsFor same) ts ts' →
    ∃ e', DerivesAddition ts' e' ∧ (same → e'.bare = e.bare)
  | .single h, hts => by
      obtain ⟨e', he, hbare⟩ := h.standsFor hts
      exact ⟨e', .single he, hbare⟩
  | .add h hop hright, hts => by
      obtain ⟨us', _, hus, hrest, rfl⟩ := forall₂_append_left_iff.mp hts
      obtain ⟨op', vs', hop', hvs, rfl⟩ := List.forall₂_cons_left_iff.mp hrest
      obtain ⟨l', hl, hlbare⟩ := h.standsFor hus
      obtain ⟨r', hr, hrbare⟩ := hright.standsFor hvs
      refine ⟨_, .add hl (hop'.kind.trans hop) hr, fun hsame => ?_⟩
      simp only [Expr.bare, hlbare hsame, hrbare hsame]

theorem DerivesFactor.standsFor {ts ts' : List Token} {e : Expr} : DerivesFactor ts e →
    List.Forall₂ (StandsFor same) ts ts' →
    ∃ e', DerivesFactor ts' e' ∧ (same → e'.bare = e.bare)
  | .unaryPlus hop h, hts => by
      obtain ⟨op', us', hop', hus, rfl⟩ := List.forall₂_cons_left_iff.mp hts
      obtain ⟨e', he, hbare⟩ := h.standsFor hus
      exact ⟨e', .unaryPlus (hop'.kind.trans hop) he, hbare⟩
  | .negate hop h, hts => by
      obtain ⟨op', us', hop', hus, rfl⟩ := List.forall₂_cons_left_iff.mp hts
      obtain ⟨e', he, hbare⟩ := h.standsFor hus
      refine ⟨_, .negate (hop'.kind.trans hop) he, fun hsame => ?_⟩
      simp only [Expr.bare, hbare hsame]
  | .group hlp h hrp, hts => by
      simp only [List.forall₂_cons_left_iff, forall₂_append_left_iff,
        List.forall₂_nil_left_iff] at hts
      obtain ⟨lp', _, hlp', ⟨us', _, hus, ⟨rp', _, hrp', rfl, rfl⟩, rfl⟩, rfl⟩ := hts
      obtain ⟨e', he, hbare⟩ := h.standsFor hus
      exact ⟨e', .group (hlp'.kind.trans hlp) he (hrp'.kind.trans hrp), hbare⟩
  | .number ht hn, hts => by
      obtain ⟨t', _, ht', ⟨⟩, rfl⟩ := List.forall₂_cons_left_iff.mp hts
      by_cases hsame : same
      · rw [← ht'.value hsame] at hn
        exact ⟨_, .number (ht'.kind.trans ht) hn, fun _ => by simp only [Expr.bare]⟩
      · obtain ⟨b', hb'⟩ := ht'.byte _ ht hn
        exact ⟨_, .number (ht'.kind.trans ht) hb', fun h => absurd h hsame⟩
  | .true ht, hts => by
      obtain ⟨t', _, ht', ⟨⟩, rfl⟩ := List.forall₂_cons_left_iff.mp hts
      exact ⟨_, .true (ht'.kind.trans ht), fun _ => by simp only [Expr.bare]⟩
  | .false ht, hts => by
      obtain ⟨t', _, ht', ⟨⟩, rfl⟩ := List.forall₂_cons_left_iff.mp hts
      exact ⟨_, .false (ht'.kind.trans ht), fun _ => by simp only [Expr.bare]⟩
  | .var hx, hts => by
      obtain ⟨x', _, hx', ⟨⟩, rfl⟩ := List.forall₂_cons_left_iff.mp hts
      refine ⟨_, .var (hx'.kind.trans hx), fun hsame => ?_⟩
      simp only [Expr.bare, hx'.value hsame]
  | .callNone hf hlp hrp, hts => by
      simp only [List.forall₂_cons_left_iff, List.forall₂_nil_left_iff] at hts
      obtain ⟨f', _, hf', ⟨lp', _, hlp', ⟨rp', _, hrp', rfl, rfl⟩, rfl⟩, rfl⟩ := hts
      refine ⟨_, .callNone (hf'.kind.trans hf) (hlp'.kind.trans hlp) (hrp'.kind.trans hrp),
        fun hsame => ?_⟩
      simp only [Expr.bare, hf'.value hsame]
  | .call hf hlp hargs hrp, hts => by
      simp only [List.forall₂_cons_left_iff, forall₂_append_left_iff,
        List.forall₂_nil_left_iff] at hts
      obtain ⟨f', _, hf', ⟨lp', _, hlp', ⟨us', _, hus, ⟨rp', _, hrp', rfl, rfl⟩, rfl⟩, rfl⟩, rfl⟩ :=
        hts
      obtain ⟨args', hargs', hbare⟩ := hargs.standsFor hus
      refine ⟨_, .call (hf'.kind.trans hf) (hlp'.kind.trans hlp) hargs' (hrp'.kind.trans hrp),
        fun hsame => ?_⟩
      simp only [Expr.bare, hf'.value hsame, hbare hsame]

theorem DerivesArguments.standsFor {ts ts' : List Token} {args : List Expr} :
    DerivesArguments ts args → List.Forall₂ (StandsFor same) ts ts' →
    ∃ args', DerivesArguments ts' args' ∧ (same → Expr.bareAll args' = Expr.bareAll args)
  | .single h, hts => by
      obtain ⟨e', he, hbare⟩ := h.standsFor hts
      exact ⟨[e'], .single he, fun hsame => by simp only [Expr.bareAll, hbare hsame]⟩
  | .cons h hcomma hmore, hts => by
      obtain ⟨us', _, hus, hrest, rfl⟩ := forall₂_append_left_iff.mp hts
      obtain ⟨comma', vs', hcomma', hvs, rfl⟩ := List.forall₂_cons_left_iff.mp hrest
      obtain ⟨e', he, hbare⟩ := h.standsFor hus
      obtain ⟨args', hargs', hbares⟩ := hmore.standsFor hvs
      refine ⟨_, .cons he (hcomma'.kind.trans hcomma) hargs', fun hsame => ?_⟩
      simp only [Expr.bareAll, hbare hsame, hbares hsame]

end

/-! ### Statements -/

theorem DerivesType.standsFor {t t' : Token} {ty : Ty} (h : DerivesType t ty)
    (ht : StandsFor same t t') : ∃ ty', DerivesType t' ty' ∧ (same → ty' = ty) := by
  cases h with
  | void h => exact ⟨_, .void (ht.kind.trans h), fun _ => rfl⟩
  | bool h => exact ⟨_, .bool (ht.kind.trans h), fun _ => rfl⟩
  | i8 h => exact ⟨_, .i8 (ht.kind.trans h), fun _ => rfl⟩
  | u8 h => exact ⟨_, .u8 (ht.kind.trans h), fun _ => rfl⟩
  | named h => exact ⟨_, .named (ht.kind.trans h), fun hsame => by rw [ht.value hsame]⟩

mutual

theorem DerivesStmt.standsFor {ts ts' : List Token} {s : Stmt} : DerivesStmt ts s →
    List.Forall₂ (StandsFor same) ts ts' →
    ∃ s', DerivesStmt ts' s' ∧ (same → s'.bare = s.bare)
  | .ifThen hstart h hcolon hnl hbody, hts => by
      simp only [List.forall₂_cons_left_iff, forall₂_append_left_iff] at hts
      obtain ⟨start', _, hstart', ⟨us', _, hus,
        ⟨colon', _, hcolon', ⟨nl', vs', hnl', hvs, rfl⟩, rfl⟩, rfl⟩, rfl⟩ := hts
      obtain ⟨e', he, hbare⟩ := h.standsFor hus
      obtain ⟨body', hbody', hbares⟩ := hbody.standsFor hvs
      refine ⟨_, .ifThen (hstart'.kind.trans hstart) he (hcolon'.kind.trans hcolon)
        (hnl'.kind.trans hnl) hbody', fun hsame => ?_⟩
      simp only [Stmt.bare, Block.toStmt, hbare hsame, hbares hsame]
  | .print hstart hlp h hrp hnl, hts => by
      simp only [List.forall₂_cons_left_iff, forall₂_append_left_iff,
        List.forall₂_nil_left_iff] at hts
      obtain ⟨start', _, hstart', ⟨lp', _, hlp', ⟨us', _, hus,
        ⟨rp', _, hrp', ⟨nl', _, hnl', rfl, rfl⟩, rfl⟩, rfl⟩, rfl⟩, rfl⟩ := hts
      obtain ⟨e', he, hbare⟩ := h.standsFor hus
      refine ⟨_, .print (hstart'.kind.trans hstart) (hlp'.kind.trans hlp) he
        (hrp'.kind.trans hrp) (hnl'.kind.trans hnl), fun hsame => ?_⟩
      simp only [Stmt.bare, hbare hsame]
  | .declare hstart hx hcolon ht hassign h hnl, hts => by
      simp only [List.forall₂_cons_left_iff, forall₂_append_left_iff,
        List.forall₂_nil_left_iff] at hts
      obtain ⟨start', _, hstart', ⟨x', _, hx', ⟨colon', _, hcolon', ⟨t', _, ht',
        ⟨assign', _, hassign', ⟨us', _, hus, ⟨nl', _, hnl', rfl, rfl⟩, rfl⟩, rfl⟩, rfl⟩, rfl⟩, rfl⟩,
        rfl⟩ := hts
      obtain ⟨ty', hty, htype⟩ := ht.standsFor ht'
      obtain ⟨e', he, hbare⟩ := h.standsFor hus
      refine ⟨_, .declare (hstart'.kind.trans hstart) (hx'.kind.trans hx)
        (hcolon'.kind.trans hcolon) hty (hassign'.kind.trans hassign) he (hnl'.kind.trans hnl),
        fun hsame => ?_⟩
      simp only [Stmt.bare, hx'.value hsame, htype hsame, hbare hsame]
  | .assign hx hassign h hnl, hts => by
      simp only [List.forall₂_cons_left_iff, forall₂_append_left_iff,
        List.forall₂_nil_left_iff] at hts
      obtain ⟨x', _, hx', ⟨assign', _, hassign', ⟨us', _, hus, ⟨nl', _, hnl', rfl, rfl⟩, rfl⟩, rfl⟩,
        rfl⟩ := hts
      obtain ⟨e', he, hbare⟩ := h.standsFor hus
      refine ⟨_, .assign (hx'.kind.trans hx) (hassign'.kind.trans hassign) he
        (hnl'.kind.trans hnl), fun hsame => ?_⟩
      simp only [Stmt.bare, hx'.value hsame, hbare hsame]
  | .ret hstart h hnl, hts => by
      simp only [List.forall₂_cons_left_iff, forall₂_append_left_iff,
        List.forall₂_nil_left_iff] at hts
      obtain ⟨start', _, hstart', ⟨us', _, hus, ⟨nl', _, hnl', rfl, rfl⟩, rfl⟩, rfl⟩ := hts
      obtain ⟨e', he, hbare⟩ := h.standsFor hus
      refine ⟨_, .ret (hstart'.kind.trans hstart) he (hnl'.kind.trans hnl), fun hsame => ?_⟩
      simp only [Stmt.bare, hbare hsame]
  | .evaluate h hnl, hts => by
      simp only [List.forall₂_cons_left_iff, forall₂_append_left_iff,
        List.forall₂_nil_left_iff] at hts
      obtain ⟨us', _, hus, ⟨nl', _, hnl', rfl, rfl⟩, rfl⟩ := hts
      obtain ⟨e', he, hbare⟩ := h.standsFor hus
      refine ⟨_, .evaluate he (hnl'.kind.trans hnl), fun hsame => ?_⟩
      simp only [Stmt.bare, hbare hsame]

theorem DerivesStmts.standsFor {ts ts' : List Token} {body : List Stmt} : DerivesStmts ts body →
    List.Forall₂ (StandsFor same) ts ts' →
    ∃ body', DerivesStmts ts' body' ∧ (same → Stmt.bareAll body' = Stmt.bareAll body)
  | .nil, hts => by
      rw [List.forall₂_nil_left_iff.mp hts]
      exact ⟨[], .nil, fun _ => rfl⟩
  | .cons h hmore, hts => by
      obtain ⟨us', vs', hus, hvs, rfl⟩ := forall₂_append_left_iff.mp hts
      obtain ⟨s', hs, hbare⟩ := h.standsFor hus
      obtain ⟨body', hbody, hbares⟩ := hmore.standsFor hvs
      refine ⟨_, .cons hs hbody, fun hsame => ?_⟩
      simp only [Stmt.bareAll, hbare hsame, hbares hsame]

theorem DerivesBlock.standsFor {ts ts' : List Token} {b : Block} : DerivesBlock ts b →
    List.Forall₂ (StandsFor same) ts ts' →
    ∃ b', DerivesBlock ts' b' ∧ (same → Stmt.bareAll b'.body = Stmt.bareAll b.body)
  | .indented hstart h hstop, hts => by
      simp only [List.forall₂_cons_left_iff, forall₂_append_left_iff,
        List.forall₂_nil_left_iff] at hts
      obtain ⟨start', _, hstart', ⟨us', _, hus, ⟨stop', _, hstop', rfl, rfl⟩, rfl⟩, rfl⟩ := hts
      obtain ⟨body', hbody, hbares⟩ := h.standsFor hus
      exact ⟨_, .indented (hstart'.kind.trans hstart) hbody (hstop'.kind.trans hstop), hbares⟩

end

/-! ### Functions -/

theorem DerivesParameters.standsFor {ts ts' : List Token} {ps : List Parameter}
    (h : DerivesParameters ts ps) (hts : List.Forall₂ (StandsFor same) ts ts') :
    ∃ ps', DerivesParameters ts' ps' ∧
      (same → ps'.map Parameter.bare = ps.map Parameter.bare) := by
  induction h generalizing ts' with
  | single hx hcolon ht =>
      simp only [List.forall₂_cons_left_iff, List.forall₂_nil_left_iff] at hts
      obtain ⟨x', _, hx', ⟨colon', _, hcolon', ⟨t', _, ht', rfl, rfl⟩, rfl⟩, rfl⟩ := hts
      obtain ⟨ty', hty, htype⟩ := ht.standsFor ht'
      refine ⟨_, .single (hx'.kind.trans hx) (hcolon'.kind.trans hcolon) hty, fun hsame => ?_⟩
      simp [Parameter.bare, hx'.value hsame, htype hsame]
  | cons hx hcolon ht hcomma _ ih =>
      simp only [List.forall₂_cons_left_iff] at hts
      obtain ⟨x', _, hx', ⟨colon', _, hcolon', ⟨t', _, ht', ⟨comma', us', hcomma', hus, rfl⟩, rfl⟩,
        rfl⟩, rfl⟩ := hts
      obtain ⟨ty', hty, htype⟩ := ht.standsFor ht'
      obtain ⟨ps', hps, hbare⟩ := ih hus
      refine ⟨_, .cons (hx'.kind.trans hx) (hcolon'.kind.trans hcolon) hty
        (hcomma'.kind.trans hcomma) hps, fun hsame => ?_⟩
      simp [Parameter.bare, hx'.value hsame, htype hsame, hbare hsame]

theorem DerivesParameterList.standsFor {ts ts' : List Token} {ps : List Parameter}
    (h : DerivesParameterList ts ps) (hts : List.Forall₂ (StandsFor same) ts ts') :
    ∃ ps', DerivesParameterList ts' ps' ∧
      (same → ps'.map Parameter.bare = ps.map Parameter.bare) := by
  cases h with
  | none =>
      rw [List.forall₂_nil_left_iff.mp hts]
      exact ⟨[], .none, fun _ => rfl⟩
  | some h =>
      obtain ⟨ps', hps, hbare⟩ := h.standsFor hts
      exact ⟨ps', .some hps, hbare⟩

theorem DerivesFunction.standsFor {ts ts' : List Token} {f : Function} (h : DerivesFunction ts f)
    (hts : List.Forall₂ (StandsFor same) ts ts') :
    ∃ f', DerivesFunction ts' f' ∧ (same → f'.bare = f.bare) := by
  cases h with
  | define hstart hname hlp hps hrp harrow ht hcolon hnl hbody =>
      simp only [List.forall₂_cons_left_iff, forall₂_append_left_iff] at hts
      obtain ⟨start', _, hstart', ⟨name', _, hname', ⟨lp', _, hlp', ⟨us', _, hus,
        ⟨rp', _, hrp', ⟨arrow', _, harrow', ⟨t', _, ht', ⟨colon', _, hcolon',
        ⟨nl', vs', hnl', hvs, rfl⟩, rfl⟩, rfl⟩, rfl⟩, rfl⟩, rfl⟩, rfl⟩, rfl⟩, rfl⟩ := hts
      obtain ⟨ps', hps', hparameters⟩ := hps.standsFor hus
      obtain ⟨ty', hty, htype⟩ := ht.standsFor ht'
      obtain ⟨body', hbody', hbares⟩ := hbody.standsFor hvs
      refine ⟨_, .define (hstart'.kind.trans hstart) (hname'.kind.trans hname)
        (hlp'.kind.trans hlp) hps' (hrp'.kind.trans hrp) (harrow'.kind.trans harrow) hty
        (hcolon'.kind.trans hcolon) (hnl'.kind.trans hnl) hbody', fun hsame => ?_⟩
      simp only [Function.bare, hname'.value hsame, hparameters hsame, htype hsame, hbares hsame]

theorem DerivesFunctions.standsFor {ts ts' : List Token} {fs : List Function} :
    DerivesFunctions ts fs → List.Forall₂ (StandsFor same) ts ts' →
    ∃ fs', DerivesFunctions ts' fs' ∧ (same → fs'.map Function.bare = fs.map Function.bare)
  | .nil, hts => by
      rw [List.forall₂_nil_left_iff.mp hts]
      exact ⟨[], .nil, fun _ => rfl⟩
  | .cons h hmore, hts => by
      obtain ⟨us', vs', hus, hvs, rfl⟩ := forall₂_append_left_iff.mp hts
      obtain ⟨f', hf, hbare⟩ := h.standsFor hus
      obtain ⟨fs', hfs, hbares⟩ := hmore.standsFor hvs
      refine ⟨_, .cons hf hfs, fun hsame => ?_⟩
      simp only [List.map_cons, hbare hsame, hbares hsame]

/-- What the grammar derives it also derives from tokens in the place of others. -/
theorem DerivesProgram.standsFor {ts ts' : List Token} {p : Program} (h : DerivesProgram ts p)
    (hts : List.Forall₂ (StandsFor same) ts ts') :
    ∃ p', DerivesProgram ts' p' ∧ (same → p'.bare = p.bare) := by
  cases h with
  | plain h hstop hp =>
      simp only [List.forall₂_cons_left_iff, forall₂_append_left_iff,
        List.forall₂_nil_left_iff] at hts
      obtain ⟨us', _, hus, ⟨stop', _, hstop', rfl, rfl⟩, rfl⟩ := hts
      obtain ⟨fs', hfs, hbares⟩ := h.standsFor hus
      obtain ⟨first, hfirst⟩ : ∃ first, (us' ++ [stop']).head? = some first :=
        Option.isSome_iff_exists.mp (by simp)
      refine ⟨_, .plain hfs (hstop'.kind.trans hstop) (by rw [hfirst]; rfl), fun hsame => ?_⟩
      simp only [Program.bare, hbares hsame]
  | behindLineEnd hnl h hstop =>
      simp only [List.forall₂_cons_left_iff, forall₂_append_left_iff,
        List.forall₂_nil_left_iff] at hts
      obtain ⟨nl', _, hnl', ⟨us', _, hus, ⟨stop', _, hstop', rfl, rfl⟩, rfl⟩, rfl⟩ := hts
      obtain ⟨fs', hfs, hbares⟩ := h.standsFor hus
      refine ⟨_, .behindLineEnd (hnl'.kind.trans hnl) hfs (hstop'.kind.trans hstop),
        fun hsame => ?_⟩
      simp only [Program.bare, hbares hsame]

/-! ### Numbers -/

/-- If the token is a number, it is a byte. -/
def Spelled (t : Token) : Prop := t.kind = .number → ∃ b, SpellsByte t.value b

def AllSpelled (ts : List Token) : Prop := ∀ t ∈ ts, Spelled t

theorem spelled_of_kind {t : Token} {k : Token.Kind} (h : t.kind = k)
    (hk : k ≠ .number := by decide) : Spelled t :=
  fun ht => absurd (h.symm.trans ht) hk

namespace AllSpelled

variable {t : Token} {ts us : List Token}

theorem nil : AllSpelled [] := List.forall_mem_nil _

theorem cons (ht : Spelled t) (hts : AllSpelled ts) : AllSpelled (t :: ts) :=
  List.forall_mem_cons.mpr ⟨ht, hts⟩

theorem single (ht : Spelled t) : AllSpelled [t] := .cons ht .nil

theorem append (hts : AllSpelled ts) (hus : AllSpelled us) : AllSpelled (ts ++ us) :=
  List.forall_mem_append.mpr ⟨hts, hus⟩

end AllSpelled

theorem DerivesComparison.spelled {t : Token} {c : Comparison} (h : DerivesComparison t c) :
    Spelled t := by
  cases h with
  | equal h => exact spelled_of_kind h
  | notEqual h => exact spelled_of_kind h

mutual

theorem DerivesExpr.spelled {ts : List Token} {e : Expr} : DerivesExpr ts e → AllSpelled ts
  | .single h => h.spelled
  | .compare h hop hright => h.spelled.append (.cons hop.spelled hright.spelled)

theorem DerivesAddition.spelled {ts : List Token} {e : Expr} :
    DerivesAddition ts e → AllSpelled ts
  | .single h => h.spelled
  | .add h hop hright => h.spelled.append (.cons (spelled_of_kind hop) hright.spelled)

theorem DerivesFactor.spelled {ts : List Token} {e : Expr} : DerivesFactor ts e → AllSpelled ts
  | .unaryPlus hop h | .negate hop h => .cons (spelled_of_kind hop) h.spelled
  | .group hlp h hrp =>
      .cons (spelled_of_kind hlp) (h.spelled.append (.single (spelled_of_kind hrp)))
  | .number _ hn => .single fun _ => ⟨_, hn⟩
  | .true ht | .false ht | .var ht => .single (spelled_of_kind ht)
  | .callNone hf hlp hrp => by
      refine .cons (spelled_of_kind hf) (.cons (spelled_of_kind hlp) ?_)
      exact .single (spelled_of_kind hrp)
  | .call hf hlp hargs hrp => by
      refine .cons (spelled_of_kind hf) (.cons (spelled_of_kind hlp) ?_)
      exact hargs.spelled.append (.single (spelled_of_kind hrp))

theorem DerivesArguments.spelled {ts : List Token} {args : List Expr} :
    DerivesArguments ts args → AllSpelled ts
  | .single h => h.spelled
  | .cons h hcomma hmore => h.spelled.append (.cons (spelled_of_kind hcomma) hmore.spelled)

end

theorem DerivesType.spelled {t : Token} {ty : Ty} (h : DerivesType t ty) : Spelled t := by
  cases h with
  | void h => exact spelled_of_kind h
  | bool h => exact spelled_of_kind h
  | i8 h => exact spelled_of_kind h
  | u8 h => exact spelled_of_kind h
  | named h => exact spelled_of_kind h

mutual

theorem DerivesStmt.spelled {ts : List Token} {s : Stmt} : DerivesStmt ts s → AllSpelled ts
  | .ifThen hstart h hcolon hnl hbody => by
      refine .cons (spelled_of_kind hstart) (h.spelled.append ?_)
      exact .cons (spelled_of_kind hcolon) (.cons (spelled_of_kind hnl) hbody.spelled)
  | .print hstart hlp h hrp hnl => by
      refine .cons (spelled_of_kind hstart) (.cons (spelled_of_kind hlp) (h.spelled.append ?_))
      exact .cons (spelled_of_kind hrp) (.single (spelled_of_kind hnl))
  | .declare hstart hx hcolon ht hassign h hnl => by
      refine .cons (spelled_of_kind hstart) (.cons (spelled_of_kind hx) ?_)
      refine .cons (spelled_of_kind hcolon) (.cons ht.spelled (.cons (spelled_of_kind hassign) ?_))
      exact h.spelled.append (.single (spelled_of_kind hnl))
  | .assign hx hassign h hnl => by
      refine .cons (spelled_of_kind hx) (.cons (spelled_of_kind hassign) ?_)
      exact h.spelled.append (.single (spelled_of_kind hnl))
  | .ret hstart h hnl =>
      .cons (spelled_of_kind hstart) (h.spelled.append (.single (spelled_of_kind hnl)))
  | .evaluate h hnl => h.spelled.append (.single (spelled_of_kind hnl))

theorem DerivesStmts.spelled {ts : List Token} {body : List Stmt} :
    DerivesStmts ts body → AllSpelled ts
  | .nil => .nil
  | .cons h hmore => h.spelled.append hmore.spelled

theorem DerivesBlock.spelled {ts : List Token} {b : Block} : DerivesBlock ts b → AllSpelled ts
  | .indented hstart h hstop =>
      .cons (spelled_of_kind hstart) (h.spelled.append (.single (spelled_of_kind hstop)))

end

theorem DerivesParameters.spelled {ts : List Token} {ps : List Parameter} :
    DerivesParameters ts ps → AllSpelled ts
  | .single hx hcolon ht =>
      .cons (spelled_of_kind hx) (.cons (spelled_of_kind hcolon) (.single ht.spelled))
  | .cons hx hcolon ht hcomma h => by
      refine .cons (spelled_of_kind hx) (.cons (spelled_of_kind hcolon) (.cons ht.spelled ?_))
      exact .cons (spelled_of_kind hcomma) h.spelled

theorem DerivesParameterList.spelled {ts : List Token} {ps : List Parameter}
    (h : DerivesParameterList ts ps) : AllSpelled ts := by
  cases h with
  | none => exact .nil
  | some h => exact h.spelled

theorem DerivesFunction.spelled {ts : List Token} {f : Function} (h : DerivesFunction ts f) :
    AllSpelled ts := by
  cases h with
  | define hstart hname hlp hps hrp harrow ht hcolon hnl hbody =>
      refine .cons (spelled_of_kind hstart) (.cons (spelled_of_kind hname) ?_)
      refine .cons (spelled_of_kind hlp) (hps.spelled.append (.cons (spelled_of_kind hrp) ?_))
      refine .cons (spelled_of_kind harrow) (.cons ht.spelled ?_)
      exact .cons (spelled_of_kind hcolon) (.cons (spelled_of_kind hnl) hbody.spelled)

/-- Whatever functions are derived from, its numbers are bytes. -/
theorem DerivesFunctions.spelled {ts : List Token} {fs : List Function} :
    DerivesFunctions ts fs → AllSpelled ts
  | .nil => .nil
  | .cons h hmore => h.spelled.append hmore.spelled

end Octet.Grammar
