import Mathlib.Logic.Basic
import Octet.Proofs.Grammar.Soundness

/-!
Whatever the grammar derives, the rules read, and they read it whole. Two
things have to be known for that. A rule must not read too far, so the token
behind a row must not be one that the rule would go on with; and where the rules
look at one or two tokens to choose between them, the choice must agree with the
derivation.
-/

namespace Octet

/-! ### Rules that read what they should -/

namespace Outcome

variable {α β : Type} {m n : Nat} {a : α} {b : β} {c c' : Cursor}

/-- The rule succeeds with the value and leaves the cursor. -/
def Reads (o : Outcome α n) (a : α) (c : Cursor) : Prop := ∃ h, o = .done a c h

theorem Reads.done {h : c.size < n} : (Outcome.done a c h).Reads a c := ⟨h, rfl⟩

theorem Reads.andThen {o : Outcome α m} (h : o.Reads a c)
    {rule : α → (c : Cursor) → c.size < m → Outcome β n}
    (hrule : ∀ hc, (rule a c hc).Reads b c') : (o.andThen rule).Reads b c' := by
  obtain ⟨hc, rfl⟩ := h
  exact hrule hc

theorem Reads.within {o : Outcome α m} (h : o.Reads a c) {reached : m < n}
    {rule : α → (c : Cursor) → c.size < n → c.size < m → Outcome β n}
    (hrule : ∀ hc hc', (rule a c hc hc').Reads b c') : (o.within reached rule).Reads b c' :=
  h.andThen fun hc => hrule _ hc

end Outcome

namespace Grammar

open Outcome

variable {last : Token} {hlast : last.kind = .eof}

theorem takeAny_reads {ks : List Token.Kind} {t : Token} (hk : t.kind ∈ ks) (hend : .eof ∉ ks)
    (us : List Token) :
    (Cursor.takeAny ks ⟨t :: us, last, hlast⟩).Reads t ⟨us, last, hlast⟩ := by
  have hne : t.kind ≠ .eof := fun he => hend (he ▸ hk)
  unfold Cursor.takeAny
  rw [dif_pos ⟨hk, hne⟩]
  exact .done

theorem take_reads {k : Token.Kind} {t : Token} (hk : t.kind = k) {us : List Token}
    (hend : .eof ∉ [k] := by decide) :
    (Cursor.take k ⟨t :: us, last, hlast⟩).Reads t ⟨us, last, hlast⟩ :=
  takeAny_reads (List.mem_singleton.mpr hk) hend us

/-! ### First and second tokens -/

def headKind (us : List Token) : Token.Kind := (us.head?.map Token.kind).getD .eof

@[simp] theorem headKind_cons (t : Token) (us : List Token) : headKind (t :: us) = t.kind := rfl

theorem kind_mk (us : List Token) : (⟨us, last, hlast⟩ : Cursor).kind = headKind us := by
  cases us with
  | nil => exact hlast
  | cons t us => rfl

theorem kind_cons (t : Token) (us : List Token) :
    (⟨t :: us, last, hlast⟩ : Cursor).kind = t.kind := rfl

theorem peek_one (us : List Token) : Cursor.peek 1 ⟨us, last, hlast⟩ = headKind us.tail := by
  rcases us with _ | ⟨t, _ | ⟨u, us⟩⟩ <;> rfl

def exprStart : List Token.Kind := [.plus, .minus, .leftParen] ++ atomStart

theorem DerivesFactor.start {ts : List Token} {e : Expr} (h : DerivesFactor ts e)
    (us : List Token) : headKind (ts ++ us) ∈ exprStart := by
  cases h with
  | unaryPlus h _ | negate h _ | group h _ _ | number h _ | true h | false h | var h
  | callNone h _ _ | call h _ _ _ =>
      rw [List.cons_append, headKind_cons, h]
      decide

theorem DerivesAddition.start {ts : List Token} {e : Expr} (h : DerivesAddition ts e)
    (us : List Token) : headKind (ts ++ us) ∈ exprStart := by
  cases h with
  | single h => exact h.start us
  | add h _ _ =>
      rw [List.append_assoc]
      exact h.start _

theorem DerivesExpr.start : ∀ {ts : List Token} {e : Expr}, DerivesExpr ts e →
    ∀ us : List Token, headKind (ts ++ us) ∈ exprStart
  | _, _, .single h, us => h.start us
  | _, _, .compare h _ _, us => by
      rw [List.append_assoc]
      exact h.start _

theorem DerivesArguments.start {ts : List Token} {args : List Expr}
    (h : DerivesArguments ts args) (us : List Token) : headKind (ts ++ us) ∈ exprStart := by
  cases h with
  | single h => exact h.start us
  | cons h _ _ =>
      rw [List.append_assoc]
      exact h.start _

/-- An expression that starts with a name does not go on with the sign of an
assignment. -/
theorem DerivesFactor.second {ts us : List Token} {e : Expr} (h : DerivesFactor ts e)
    (hus : headKind us ≠ .assign) (hk : headKind (ts ++ us) = .identifier) :
    headKind (ts ++ us).tail ≠ .assign := by
  cases h with
  | unaryPlus h _ | negate h _ | group h _ _ | number h _ | true h | false h =>
      rw [List.cons_append, headKind_cons, h] at hk
      cases hk
  | var h => exact hus
  | callNone hf hlp hrp | call hf hlp hargs hrp =>
      rw [List.cons_append, List.tail_cons, List.cons_append, headKind_cons, hlp]
      decide

theorem DerivesAddition.second {ts us : List Token} {e : Expr} (h : DerivesAddition ts e)
    (hus : headKind us ≠ .assign) (hk : headKind (ts ++ us) = .identifier) :
    headKind (ts ++ us).tail ≠ .assign := by
  cases h with
  | single h => exact h.second hus hk
  | add h hop _ =>
      rw [List.append_assoc] at hk ⊢
      exact h.second (by rw [List.cons_append, headKind_cons, hop]; decide) hk

theorem DerivesExpr.second : ∀ {ts us : List Token} {e : Expr}, DerivesExpr ts e →
    headKind us ≠ .assign → headKind (ts ++ us) = .identifier →
    headKind (ts ++ us).tail ≠ .assign
  | _, _, _, .single h, hus, hk => h.second hus hk
  | _, _, _, .compare h hop _, _, hk => by
      rw [List.append_assoc] at hk ⊢
      refine h.second ?_ hk
      rw [List.cons_append, headKind_cons]
      cases hop with
      | equal h | notEqual h => rw [h]; decide

theorem DerivesStmt.start {ts : List Token} {s : Stmt} (h : DerivesStmt ts s)
    (us : List Token) : headKind (ts ++ us) ≠ .dedent := by
  cases h with
  | ifThen h _ _ _ _ | print h _ _ _ _ | declare h _ _ _ _ _ _ | assign h _ _ _ | ret h _ _ =>
      rw [List.cons_append, headKind_cons, h]
      decide
  | evaluate h _ =>
      rw [List.append_assoc]
      exact ne_of_mem_of_not_mem (h.start _) (by decide)

/-! ### Expressions -/

theorem DerivesComparison.comparison? {t : Token} {c : Comparison} (h : DerivesComparison t c) :
    comparison? t.kind = some c := by
  cases h with
  | equal h | notEqual h => rw [h]; rfl

theorem DerivesComparison.kind_mem {t : Token} {c : Comparison} (h : DerivesComparison t c) :
    t.kind ∈ [Token.Kind.equal, .notEqual] := by
  cases h with
  | equal h | notEqual h => rw [h]; decide

/-- A sum is over in front of a token of this kind. -/
def EndsSum (k : Token.Kind) : Prop := k ≠ .plus ∧ k ≠ .leftParen

/-- An expression is over in front of a token of this kind. -/
def EndsExpr (k : Token.Kind) : Prop := EndsSum k ∧ comparison? k = none

instance : DecidablePred EndsSum := fun _ => inferInstanceAs (Decidable (_ ∧ _))

instance : DecidablePred EndsExpr := fun _ => inferInstanceAs (Decidable (_ ∧ _))

theorem endsExpr_cons {k : Token.Kind} {t : Token} (h : t.kind = k) (us : List Token)
    (hk : EndsExpr k := by decide) : EndsExpr (headKind (t :: us)) := by
  rwa [headKind_cons, h]

theorem DerivesComparison.endsSum {t : Token} {c : Comparison} (h : DerivesComparison t c) :
    EndsSum t.kind := by
  cases h with
  | equal h | notEqual h => rw [h]; decide

theorem comparisons_stop {us : List Token} (hus : comparison? (headKind us) = none) {e : Expr}
    {n : Nat} (h : Cursor.size ⟨us, last, hlast⟩ < n) :
    (comparisons .standard e ⟨us, last, hlast⟩ h).Reads e ⟨us, last, hlast⟩ := by
  rw [comparisons, kind_mk, hus]
  exact .done

theorem atom_reads {t : Token} (ht : t.kind ∈ atomStart) {us : List Token} {e : Expr} {c : Cursor}
    (h : (atom .standard ⟨t :: us, last, hlast⟩).Reads e c) :
    (factor .standard ⟨t :: us, last, hlast⟩).Reads e c := by
  have hrule : Dispatch.standard.factor? t.kind = some .atom := by
    have hkinds : t.kind = .number ∨ t.kind = .identifier ∨ t.kind = .kwTrue ∨
        t.kind = .kwFalse := by
      simpa [atomStart] using ht
    rcases hkinds with hk | hk | hk | hk <;> rw [hk] <;> rfl
  rw [factor, kind_cons, hrule]
  exact h

theorem call_reads {f lp rp : Token} (hf : f.kind = .identifier) (hlp : lp.kind = .leftParen)
    (hrp : rp.kind = .rightParen) (ts : List Token) {us : List Token} {args : List Expr}
    (hargs : ∀ {n : Nat} (h : Cursor.size ⟨ts ++ rp :: us, last, hlast⟩ < n),
      (argumentList .standard ⟨ts ++ rp :: us, last, hlast⟩ h).Reads args
        ⟨rp :: us, last, hlast⟩) :
    (factor .standard ⟨f :: lp :: (ts ++ [rp]) ++ us, last, hlast⟩).Reads
      (.call f.value args f.position) ⟨us, last, hlast⟩ := by
  rw [List.cons_append, List.cons_append, List.append_assoc, List.singleton_append]
  apply atom_reads (by rw [hf]; decide)
  rw [atom, kind_cons, hf]
  simp only [peek_one, List.tail_cons, headKind_cons, hlp, if_true]
  rw [call]
  refine (take_reads hf).andThen fun _ => ?_
  refine (take_reads hlp).within fun _ _ => ?_
  refine (hargs _).andThen fun _ => ?_
  refine (take_reads hrp).within fun _ _ => ?_
  exact .done

mutual

/-- An expression is read up to its end, and then the comparisons behind it.
These take part because what has been read is the left operand of the first of
them. -/
theorem expr_reads_on {ts us : List Token} {e e' : Expr} {c : Cursor} : DerivesExpr ts e →
    EndsSum (headKind us) →
    (∀ {n : Nat} (h : Cursor.size ⟨us, last, hlast⟩ < n),
      (comparisons .standard e ⟨us, last, hlast⟩ h).Reads e' c) →
    (expr .standard ⟨ts ++ us, last, hlast⟩).Reads e' c
  | .single h, hus, hrest => by
      rw [expr]
      exact (addition_reads h hus).andThen hrest
  | .compare h hop hright, hus, hrest => by
      rw [List.append_assoc, List.cons_append]
      -- The last operator of the row is where the expression in front of it ends.
      refine expr_reads_on h hop.endsSum fun _ => ?_
      rw [comparisons, kind_cons, hop.comparison?]
      refine (takeAny_reads hop.kind_mem (by decide) _).within fun _ _ => ?_
      refine (addition_reads hright hus).within fun _ _ => ?_
      exact hrest _

theorem addition_reads {ts us : List Token} {e : Expr} : DerivesAddition ts e →
    EndsSum (headKind us) →
    (addition .standard ⟨ts ++ us, last, hlast⟩).Reads e ⟨us, last, hlast⟩
  | .single h, hus => by
      rw [addition]
      refine (factor_reads h hus.2).andThen fun _ => ?_
      rw [kind_mk, if_neg hus.1]
      exact .done
  | .add h hop hright, hus => by
      rw [List.append_assoc, List.cons_append, addition]
      refine (factor_reads h (by simp [hop])).andThen fun _ => ?_
      rw [kind_cons, if_pos hop]
      refine (take_reads hop).within fun _ _ => ?_
      refine (addition_reads hright hus).within fun _ _ => ?_
      exact .done

theorem factor_reads {ts us : List Token} {e : Expr} : DerivesFactor ts e →
    headKind us ≠ .leftParen →
    (factor .standard ⟨ts ++ us, last, hlast⟩).Reads e ⟨us, last, hlast⟩
  | .unaryPlus hop h, hus => by
      rw [List.cons_append, factor, kind_cons, hop]
      show (unaryPlus _ _).Reads _ _
      rw [unaryPlus]
      refine (take_reads hop).andThen fun _ => ?_
      refine (factor_reads h hus).within fun _ _ => ?_
      exact .done
  | .negate hop h, hus => by
      rw [List.cons_append, factor, kind_cons, hop]
      show (negation _ _).Reads _ _
      rw [negation]
      refine (take_reads hop).andThen fun _ => ?_
      refine (factor_reads h hus).within fun _ _ => ?_
      exact .done
  | .group hlp h hrp, hus => by
      rw [List.cons_append, List.append_assoc, List.singleton_append, factor, kind_cons, hlp]
      show (grouping _ _).Reads _ _
      rw [grouping]
      have hend := endsExpr_cons hrp us
      refine (take_reads hlp).andThen fun _ => ?_
      refine (expr_reads_on h hend.1 (comparisons_stop hend.2)).within fun _ _ => ?_
      refine (take_reads hrp).within fun _ _ => ?_
      exact .done
  | .number ht hn, hus => by
      rw [List.singleton_append]
      apply atom_reads (by rw [ht]; decide)
      rw [atom, kind_cons, ht]
      show (number _).Reads _ _
      rw [number]
      refine (take_reads ht).andThen fun _ => ?_
      rw [byte?_eq_some_iff.mpr hn]
      exact .done
  | .true ht, hus => by
      rw [List.singleton_append]
      apply atom_reads (by rw [ht]; decide)
      rw [atom, kind_cons, ht]
      exact (take_reads ht).andThen fun _ => .done
  | .false ht, hus => by
      rw [List.singleton_append]
      apply atom_reads (by rw [ht]; decide)
      rw [atom, kind_cons, ht]
      exact (take_reads ht).andThen fun _ => .done
  | .var hx, hus => by
      rw [List.singleton_append]
      apply atom_reads (by rw [hx]; decide)
      rw [atom, kind_cons, hx]
      simp only [peek_one, List.tail_cons, hus, if_false]
      exact (take_reads hx).andThen fun _ => .done
  | .callNone hf hlp hrp, hus => by
      refine call_reads hf hlp hrp [] fun h => ?_
      show (argumentList _ ⟨_ :: us, last, hlast⟩ h).Reads _ _
      rw [argumentList, kind_cons, if_pos hrp]
      exact .done
  | .call hf hlp hargs hrp, hus => by
      refine call_reads hf hlp hrp _ fun _ => ?_
      rw [argumentList, if_neg ?_]
      · refine (arguments_read hargs (by exact hrp)).within fun _ _ => ?_
        exact .done
      · rw [kind_mk]
        exact ne_of_mem_of_not_mem (hargs.start _) (by decide)

theorem arguments_read {ts us : List Token} {args : List Expr} : DerivesArguments ts args →
    headKind us = .rightParen →
    (arguments .standard ⟨ts ++ us, last, hlast⟩).Reads args ⟨us, last, hlast⟩
  | .single h, hus => by
      have hend : EndsExpr (headKind us) := by rw [hus]; decide
      rw [arguments]
      refine (expr_reads_on h hend.1 (comparisons_stop hend.2)).andThen fun _ => ?_
      rw [kind_mk, hus, if_neg (by decide)]
      exact .done
  | .cons h hcomma hmore, hus => by
      have hend := endsExpr_cons hcomma
      rw [List.append_assoc, List.cons_append, arguments]
      refine (expr_reads_on h (hend _).1 (comparisons_stop (hend _).2)).andThen fun _ => ?_
      rw [kind_cons, if_pos hcomma]
      refine (take_reads hcomma).within fun _ _ => ?_
      refine (arguments_read hmore hus).within fun _ _ => ?_
      exact .done

end

theorem expr_reads {ts us : List Token} {e : Expr} (h : DerivesExpr ts e)
    (hend : EndsExpr (headKind us)) :
    (expr .standard ⟨ts ++ us, last, hlast⟩).Reads e ⟨us, last, hlast⟩ :=
  expr_reads_on h hend.1 (comparisons_stop hend.2)

/-! ### Statements -/

theorem DerivesType.typeOf {t : Token} {ty : Ty} (h : DerivesType t ty) :
    t.kind ∈ typeStart ∧ Grammar.typeOf t = ty := by
  cases h with
  | void h | bool h | i8 h | u8 h | named h =>
      unfold Grammar.typeOf
      rw [h]
      exact ⟨by decide, rfl⟩

theorem type_reads {t : Token} {ty : Ty} (h : DerivesType t ty) {us : List Token} :
    (type ⟨t :: us, last, hlast⟩).Reads ty ⟨us, last, hlast⟩ := by
  obtain ⟨hk, rfl⟩ := h.typeOf
  exact (takeAny_reads hk (by decide) us).andThen fun _ => .done

theorem printStmt_reads {ts us : List Token} {value : Expr} {start lp rp nl : Token}
    (hstart : start.kind = .kwPrint) (hlp : lp.kind = .leftParen) (hvalue : DerivesExpr ts value)
    (hrp : rp.kind = .rightParen) (hnl : nl.kind = .newline) :
    (printStmt .standard ⟨start :: lp :: (ts ++ rp :: nl :: us), last, hlast⟩).Reads
      (.print value start.position) ⟨us, last, hlast⟩ := by
  refine (take_reads hstart).andThen fun _ => ?_
  refine (take_reads hlp).within fun _ _ => ?_
  refine (expr_reads hvalue (endsExpr_cons hrp _)).within fun _ _ => ?_
  refine (take_reads hrp).within fun _ _ => ?_
  refine (take_reads hnl).within fun _ _ => ?_
  exact .done

theorem declareStmt_reads {ts us : List Token} {type : Ty} {value : Expr}
    {start x colon t assign nl : Token} (hstart : start.kind = .kwLet)
    (hx : x.kind = .identifier) (hcolon : colon.kind = .colon) (ht : DerivesType t type)
    (hassign : assign.kind = .assign) (hvalue : DerivesExpr ts value)
    (hnl : nl.kind = .newline) :
    (declareStmt .standard
      ⟨start :: x :: colon :: t :: assign :: (ts ++ nl :: us), last, hlast⟩).Reads
      (.declare x.value type value start.position) ⟨us, last, hlast⟩ := by
  refine (take_reads hstart).andThen fun _ => ?_
  refine (take_reads hx).within fun _ _ => ?_
  refine (take_reads hcolon).within fun _ _ => ?_
  refine (type_reads ht).within fun _ _ => ?_
  refine (take_reads hassign).within fun _ _ => ?_
  refine (expr_reads hvalue (endsExpr_cons hnl _)).within fun _ _ => ?_
  refine (take_reads hnl).within fun _ _ => ?_
  exact .done

theorem assignStmt_reads {ts us : List Token} {value : Expr} {x assign nl : Token}
    (hx : x.kind = .identifier) (hassign : assign.kind = .assign) (hvalue : DerivesExpr ts value)
    (hnl : nl.kind = .newline) :
    (assignStmt .standard ⟨x :: assign :: (ts ++ nl :: us), last, hlast⟩).Reads
      (.assign x.value value x.position) ⟨us, last, hlast⟩ := by
  refine (take_reads hx).andThen fun _ => ?_
  refine (take_reads hassign).within fun _ _ => ?_
  refine (expr_reads hvalue (endsExpr_cons hnl _)).within fun _ _ => ?_
  refine (take_reads hnl).within fun _ _ => ?_
  exact .done

theorem retStmt_reads {ts us : List Token} {value : Expr} {start nl : Token}
    (hstart : start.kind = .kwReturn) (hvalue : DerivesExpr ts value)
    (hnl : nl.kind = .newline) :
    (retStmt .standard ⟨start :: (ts ++ nl :: us), last, hlast⟩).Reads
      (.ret value start.position) ⟨us, last, hlast⟩ := by
  refine (take_reads hstart).andThen fun _ => ?_
  refine (expr_reads hvalue (endsExpr_cons hnl _)).within fun _ _ => ?_
  refine (take_reads hnl).within fun _ _ => ?_
  exact .done

theorem evaluateStmt_reads {ts us : List Token} {value : Expr} {nl : Token}
    (hvalue : DerivesExpr ts value) (hnl : nl.kind = .newline) :
    (evaluateStmt .standard ⟨ts ++ nl :: us, last, hlast⟩).Reads (.evaluate value)
      ⟨us, last, hlast⟩ := by
  refine (expr_reads hvalue (endsExpr_cons hnl _)).andThen fun _ => ?_
  refine (take_reads hnl).within fun _ _ => ?_
  exact .done

theorem stmt?_of_exprStart {k : Token.Kind} (h : k ∈ exprStart) :
    Dispatch.standard.stmt? k = none := by
  cases k <;> first | rfl | exact absurd h (by decide)

mutual

theorem stmt_reads {ts us : List Token} {s : Stmt} : DerivesStmt ts s →
    (stmt .standard ⟨ts ++ us, last, hlast⟩).Reads s ⟨us, last, hlast⟩
  | .ifThen hstart hcondition hcolon hnl hbody => by
      rw [List.cons_append, List.append_assoc, List.cons_append, List.cons_append, stmt,
        kind_cons, hstart]
      show (ifStmt _ _).Reads _ _
      rw [ifStmt]
      refine (take_reads hstart).andThen fun _ => ?_
      refine (expr_reads hcondition (endsExpr_cons hcolon _)).within fun _ _ => ?_
      refine (take_reads hcolon).within fun _ _ => ?_
      refine (take_reads hnl).within fun _ _ => ?_
      refine (block_reads hbody).within fun _ _ => ?_
      exact .done
  | .print hstart hlp hvalue hrp hnl => by
      rw [List.cons_append, List.cons_append, List.append_assoc, stmt, kind_cons, hstart]
      exact printStmt_reads hstart hlp hvalue hrp hnl
  | .declare hstart hx hcolon ht hassign hvalue hnl => by
      iterate 5 rw [List.cons_append]
      rw [List.append_assoc, stmt, kind_cons, hstart]
      exact declareStmt_reads hstart hx hcolon ht hassign hvalue hnl
  | .assign hx hassign hvalue hnl => by
      rw [List.cons_append, List.cons_append, List.append_assoc, stmt, kind_cons, hx, peek_one]
      show (if _ then _ else _ : Outcome _ _).Reads _ _
      rw [if_pos ⟨rfl, hassign⟩]
      exact assignStmt_reads hx hassign hvalue hnl
  | .ret hstart hvalue hnl => by
      rw [List.cons_append, List.append_assoc, stmt, kind_cons, hstart]
      exact retStmt_reads hstart hvalue hnl
  | .evaluate hvalue hnl => by
      rw [List.append_assoc, List.singleton_append]
      rw [stmt, kind_mk, peek_one, stmt?_of_exprStart (hvalue.start _)]
      show (if _ then _ else _ : Outcome _ _).Reads _ _
      rw [if_neg fun h => hvalue.second (by rw [headKind_cons, hnl]; decide) h.1 h.2]
      exact evaluateStmt_reads hvalue hnl

theorem stmts_read {ts us : List Token} {body : List Stmt} {c : Cursor} {n : Nat} :
    DerivesStmts ts body → headKind us = .dedent → c = ⟨ts ++ us, last, hlast⟩ →
    ∀ h : c.size < n, (stmts .standard c h).Reads body ⟨us, last, hlast⟩
  | .nil, hus, hc, h => by
      rw [List.nil_append] at hc
      subst hc
      rw [stmts, kind_mk, if_pos hus]
      exact .done
  | .cons hfirst hmore, hus, hc, h => by
      rw [List.append_assoc] at hc
      subst hc
      rw [stmts, kind_mk, if_neg (hfirst.start _)]
      refine (stmt_reads hfirst).within fun h₁ _ => ?_
      exact (stmts_read hmore hus rfl h₁).andThen fun _ => .done

theorem block_reads {ts us : List Token} {body : Block} : DerivesBlock ts body →
    (block .standard ⟨ts ++ us, last, hlast⟩).Reads body ⟨us, last, hlast⟩
  | .indented hstart hbody hstop => by
      rw [List.cons_append, List.append_assoc, List.singleton_append, block]
      refine (take_reads hstart).andThen fun h₁ => ?_
      refine (stmts_read hbody (by exact hstop) rfl h₁).andThen fun _ => ?_
      refine (take_reads hstop).within fun _ _ => ?_
      exact .done

end

/-! ### Functions and programs -/

theorem parameters_read {ts us : List Token} {ps : List Parameter} (h : DerivesParameters ts ps)
    (hus : headKind us = .rightParen) :
    (parameters ⟨ts ++ us, last, hlast⟩).Reads ps ⟨us, last, hlast⟩ := by
  induction h with
  | single hx hcolon ht =>
      iterate 3 rw [List.cons_append]
      rw [List.nil_append, parameters]
      refine (take_reads hx).andThen fun _ => ?_
      refine (take_reads hcolon).within fun _ _ => ?_
      refine (type_reads ht).within fun _ _ => ?_
      rw [kind_mk, hus, if_neg (by decide)]
      exact .done
  | cons hx hcolon ht hcomma _ ih =>
      iterate 4 rw [List.cons_append]
      rw [parameters]
      refine (take_reads hx).andThen fun _ => ?_
      refine (take_reads hcolon).within fun _ _ => ?_
      refine (type_reads ht).within fun _ _ => ?_
      rw [kind_cons, if_pos hcomma]
      refine (take_reads hcomma).within fun _ _ => ?_
      refine ih.within fun _ _ => ?_
      exact .done

theorem parameterList_reads {ts us : List Token} {ps : List Parameter}
    (h : DerivesParameterList ts ps) (hus : headKind us = .rightParen) {c : Cursor}
    (hc : c = ⟨ts ++ us, last, hlast⟩) {n : Nat} (hn : c.size < n) :
    (parameterList c hn).Reads ps ⟨us, last, hlast⟩ := by
  cases h with
  | none =>
      rw [List.nil_append] at hc
      subst hc
      rw [parameterList, kind_mk, if_pos hus]
      exact .done
  | some h =>
      subst hc
      have hname : headKind (ts ++ us) = .identifier := by
        cases h with
        | single hx _ _ | cons hx _ _ _ _ => exact hx
      rw [parameterList, kind_mk, hname, if_neg (by decide)]
      refine (parameters_read h hus).within fun _ _ => ?_
      exact .done

theorem function_reads {ts us : List Token} {f : Function} (h : DerivesFunction ts f) :
    (function .standard ⟨ts ++ us, last, hlast⟩).Reads f ⟨us, last, hlast⟩ := by
  cases h with
  | define hstart hname hlp hps hrp harrow ht hcolon hnl hbody =>
      iterate 3 rw [List.cons_append]
      rw [List.append_assoc]
      refine (take_reads hstart).andThen fun _ => ?_
      refine (take_reads hname).within fun _ _ => ?_
      refine (take_reads hlp).within fun h₃ _ => ?_
      refine (parameterList_reads hps (by exact hrp) rfl h₃).andThen fun _ => ?_
      refine (take_reads hrp).within fun _ _ => ?_
      refine (take_reads harrow).within fun _ _ => ?_
      refine (type_reads ht).within fun _ _ => ?_
      refine (take_reads hcolon).within fun _ _ => ?_
      refine (take_reads hnl).within fun _ _ => ?_
      refine (block_reads hbody).within fun _ _ => ?_
      exact .done

theorem DerivesFunction.start {ts : List Token} {f : Function} (h : DerivesFunction ts f)
    (us : List Token) : headKind (ts ++ us) = .kwDef := by
  cases h with
  | define hstart _ _ _ _ _ _ _ _ _ => exact hstart

theorem functions_read {ts : List Token} {fs : List Function} (h : DerivesFunctions ts fs)
    {n : Nat} (hn : Cursor.size ⟨ts, last, hlast⟩ < n) :
    (functions .standard ⟨ts, last, hlast⟩ hn).Reads fs ⟨[], last, hlast⟩ := by
  induction h generalizing n with
  | nil =>
      rw [functions, if_pos (by exact hlast)]
      exact .done
  | cons hfirst _ ih =>
      rw [functions, kind_mk, hfirst.start, if_neg (by decide)]
      refine (function_reads hfirst).within fun h₁ _ => ?_
      exact (ih h₁).andThen fun _ => .done

end Grammar

end Octet
