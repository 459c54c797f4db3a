import Octet.Proofs.Typing.Settled

/-!
The type of a literal stays inside of checking. In no state that checking passes
through is a variable bound to it or to a type that it is a part of, and no error
shows it: where a literal does not fit, the error says `u8`.
-/

namespace Octet

open Check

open Checker (Leads)

/-! ### States -/

namespace Stmt

mutual

theorem states_settled : (s : Stmt) → s.Shaped → {c : Checker} → c.Settled →
    ∀ c' ∈ s.states c, c'.Settled
  | block body p, hs, c, hc => by
      have hend := (check_settles (block body p) hs c hc).after
      rw [Shaped] at hs
      rw [states]
      refine List.forall_mem_cons.mpr ⟨hc.inside, List.forall_mem_append.mpr ⟨?_, ?_⟩⟩
      · exact statesAll_settled body hs hc.inside
      · exact List.forall_mem_singleton.mpr hend
  | ifThen condition consequence _, hs, c, hc => by
      rw [Shaped] at hs
      rw [states]
      refine (checkCondition_settles condition).passing (fun _ c' _ hc' => ?_) hc
      exact states_settled consequence hs.2 hc'
  | print _ _, hs, c, hc | declare _ _ _ _, hs, c, hc | assign _ _ _, hs, c, hc
  | ret _ _, hs, c, hc | evaluate _, hs, c, hc => by
      rw [states]
      exact List.forall_mem_singleton.mpr (check_settles _ hs c hc).after

theorem statesAll_settled : (body : List Stmt) → ShapedAll body → {c : Checker} → c.Settled →
    ∀ c' ∈ statesAll body c, c'.Settled
  | [], _, c, _ => by
      rw [statesAll]
      exact nofun
  | s :: body, hs, c, hc => by
      rw [ShapedAll] at hs
      rw [statesAll]
      refine List.forall_mem_append.mpr ⟨states_settled s hs.1 hc, ?_⟩
      exact statesAll_settled body hs.2 (check_settles s hs.1 c hc).after

end

end Stmt

namespace Function

theorem parameterStates_settled : (ps : List Parameter) → (∀ p ∈ ps, p.type.Written) →
    {c : Checker} → c.Settled → ∀ c' ∈ parameterStates ps c, c'.Settled
  | [], _, _, _ => nofun
  | p :: ps, h, c, hc => by
      obtain ⟨hfirst, hothers⟩ := List.forall_mem_cons.mp h
      rw [parameterStates]
      refine (settles_ask fun env henv => henv.resolve hfirst p.position).passing
        (fun t c₁ ht hc₁ => ?_) hc
      have hdeclare := settles_update fun env henv => declare_answers henv p.name ht p.position
      refine List.forall_mem_cons.mpr ⟨(hdeclare c₁ hc₁).after, ?_⟩
      exact hdeclare.passing (fun _ c₂ _ hc₂ => parameterStates_settled ps hothers hc₂) hc₁

theorem bodyStates_settled {f : Function} (hf : f.Shaped) {c : Checker} (hc : c.Settled) :
    ∀ c' ∈ f.bodyStates c, c'.Settled := by
  refine (settles_ask fun env henv => henv.resolve hf.returns f.position).passing
    (fun returns c₁ hreturns hc₁ => ?_) hc
  have hstarted : Checker.Settled { c₁ with returnType := returns } := ⟨hc₁.environment, hreturns⟩
  refine List.forall_mem_cons.mpr ⟨hstarted, List.forall_mem_append.mpr ⟨?_, ?_⟩⟩
  · exact parameterStates_settled f.parameters hf.parameters hstarted
  · refine (declareParameters_settles f.parameters hf.parameters).passing
      (fun _ c₂ _ hc₂ => ?_) hstarted
    exact Stmt.states_settled f.body.toStmt hf.body hc₂

theorem states_settled {f : Function} (hf : f.Shaped) {c : Checker} (hc : c.Settled) :
    ∀ c' ∈ f.states c, c'.Settled := by
  have hstarted : Checker.Settled { c with returned := false, returnType := f.returns } :=
    ⟨hc.environment, hf.returns.settled⟩
  have hnamed := hstarted.setVariable f.name (hf.visibleSignature_settled hc.environment)
  refine List.forall_mem_cons.mpr ⟨hstarted, List.forall_mem_cons.mpr ⟨hnamed, ?_⟩⟩
  refine List.forall_mem_cons.mpr ⟨hnamed.inside, List.forall_mem_append.mpr ⟨?_, ?_⟩⟩
  · exact bodyStates_settled hf hnamed.inside
  · exact List.forall_mem_singleton.mpr (check_settles hf c hc).after

theorem declareStates_settled : (fs : List Function) → (∀ f ∈ fs, f.Shaped) → {c : Checker} →
    c.Settled → ∀ c' ∈ declareStates fs c, c'.Settled
  | [], _, _, _ => nofun
  | f :: fs, h, c, hc => by
      obtain ⟨hfirst, hothers⟩ := List.forall_mem_cons.mp h
      have hdeclared := (declare_settles hfirst c hc).after
      exact List.forall_mem_cons.mpr ⟨hdeclared, declareStates_settled fs hothers hdeclared⟩

theorem checkStates_settled : (fs : List Function) → (∀ f ∈ fs, f.Shaped) → {c : Checker} →
    c.Settled → ∀ c' ∈ checkStates fs c, c'.Settled
  | [], _, _, _ => nofun
  | f :: fs, h, c, hc => by
      obtain ⟨hfirst, hothers⟩ := List.forall_mem_cons.mp h
      have hchecked := (check_settles hfirst c hc).after
      exact List.forall_mem_append.mpr
        ⟨states_settled hfirst hc, checkStates_settled fs hothers hchecked⟩

end Function

namespace Program

theorem states_settled {p : Program} (h : p.Shaped) : ∀ c ∈ p.states, c.Settled := by
  have hdeclared : p.declared.Settled :=
    (Function.declareAll_settles p.functions h _ Checker.settled_initial).after
  refine List.forall_mem_append.mpr ⟨?_, ?_⟩
  · exact Function.declareStates_settled p.functions h Checker.settled_initial
  · exact Function.checkStates_settled p.functions h hdeclared

theorem typeCheck_settled {p : Program} (h : p.Shaped) {e : TypeError}
    (he : p.typeCheck = .error e) : e.Settled := by
  have hend := check_settles h _ Checker.settled_initial
  unfold typeCheck at he
  cases hcheck : p.check Checker.initial with
  | ok u c =>
      rw [hcheck] at he
      cases he
  | error e' c =>
      rw [hcheck] at he hend
      cases he
      exact hend.2

end Program

/-! ### What errors show of literals -/

/-- If the error is a mismatch, it shows `u8` as what was received. -/
def TypeError.ReceivesU8 (e : TypeError) : Prop :=
  ∀ expected received p, e = .single (.mismatch expected received) p → received = .u8

theorem TypeError.receivesU8_mismatch (expected : Ty) (p : Position) :
    (single (.mismatch expected .u8) p).ReceivesU8 := by
  rintro _ _ _ ⟨⟩
  rfl

theorem Check.Ends.error? {α : Type} {Q : α → Prop} {E : TypeError → Prop} {x : Check α}
    (h : x.Ends Q E) {c : Checker} {e : TypeError} (he : error? (x c) = some e) : E e := by
  cases hr : x c with
  | ok a c' =>
      rw [hr] at he
      cases he
  | error e' c' =>
      rw [hr] at he
      cases he
      exact h.error c _ c' hr

theorem Environment.variableType_error {env : Environment} {x : String} {p : Position}
    {e : TypeError} (h : env.variableType x p = .error e) :
    e = .single (.undefinedVariable x) p := by
  unfold Environment.variableType at h
  split at h
  · cases h
  · cases h
    rfl

theorem Environment.resolve_error {env : Environment} {t : Ty} {p : Position} {e : TypeError}
    (h : env.resolve t p = .error e) : ∃ name, e = .single (.undefinedType (.named name)) p := by
  unfold Environment.resolve at h
  split at h
  · unfold Environment.namedType at h
    split at h
    · cases h
    · cases h
      exact ⟨_, rfl⟩
  · cases h

/-- The value whose type a statement asks for. -/
def Stmt.value? : Stmt → Option Expr
  | block _ _ => none
  | ifThen value _ _ | print value _ | declare _ _ value _ | assign _ value _ | ret value _
  | evaluate value => some value

/-- A statement that does not take a literal says that it got a `u8`. -/
theorem Stmt.receivesU8 {s : Stmt} {value : Expr} (hs : s.value? = some value) {c : Checker}
    (hvalue : value.typeIn c.environment = .ok .literal) {e : TypeError}
    (he : error? (s.check c) = some e) : e.ReceivesU8 := by
  have htype : typeOf value c = .ok .literal c := ask_ok.mpr ⟨hvalue, rfl⟩
  have hu8 (expected : Ty) (p : Position) := TypeError.receivesU8_mismatch expected p
  cases s with
  | block body p => cases hs
  | ifThen condition consequence p =>
      cases hs
      rw [check, checkCondition, bind_assoc, bind_of_ok htype, if_pos (by decide)] at he
      refine Ends.error? (Q := fun _ => True) ?_ he
      exact (ends_throw (Q := fun _ => False) (hu8 _ _)).bind fun _ h => h.elim
  | print _ p | evaluate _ =>
      cases hs
      rw [check, bind_of_ok htype] at he
      cases he
  | declare x t _ p =>
      cases hs
      rw [check, checkDeclare, bind_of_ok htype] at he
      refine Ends.error? (Q := fun _ => True) ?_ he
      refine ends_get.bind fun c _ => ends_unless nofun ?_
      refine (ends_ask fun env e h => ?_).bind fun expected _ => ?_
      · obtain ⟨name, rfl⟩ := Environment.resolve_error h
        exact nofun
      · exact (ends_modify _).bind fun _ _ => ends_unless_end (hu8 expected p)
  | assign x _ p =>
      cases hs
      rw [check, checkAssign, bind_of_ok htype] at he
      refine Ends.error? (Q := fun _ => True) ?_ he
      refine (ends_ask fun env e h => ?_).bind fun expected _ => ends_unless_end (hu8 expected p)
      rw [Environment.variableType_error h]
      exact nofun
  | ret _ p =>
      cases hs
      rw [check, checkRet, bind_of_ok htype] at he
      refine Ends.error? (Q := fun _ => True) ?_ he
      exact ends_get.bind fun c _ => ends_unless (hu8 _ p) (ends_modify _)


theorem Ty.defaulted_eq {t : Ty} (h : t ≠ literal) : t.defaulted = t := by
  cases t with
  | literal => exact (h rfl).elim
  | _ => rfl

/-- What a comparison shows if its sides cannot be compared. -/
theorem Expr.compare_error {env : Environment} {op : Comparison} {left right : Expr}
    {p : Position} {s t : Ty} {e : TypeError} (hleft : left.typeIn env = .ok s)
    (hright : right.typeIn env = .ok t) (h : (compare op left right p).typeIn env = .error e) :
    s.comparable t = false ∧ e = .single (.mismatch s.defaulted t.defaulted) p := by
  rw [typeIn, hleft, hright] at h
  simp only [bind, Except.bind] at h
  split at h
  · cases h
  · next hcompare =>
      cases h
      exact ⟨eq_false_of_ne_true hcompare, rfl⟩

theorem Expr.checkArguments_error {env : Environment} {a : Expr} {args : List Expr} {s t : Ty}
    {parameters : List Ty} {e : TypeError} (ha : a.typeIn env = .ok s)
    (h : checkArguments env (a :: args) (t :: parameters) = .error e) :
    e = .single (.mismatch t s.defaulted) a.position ∨
      checkArguments env args parameters = .error e := by
  rw [checkArguments, ha] at h
  simp only [bind, Except.bind] at h
  split at h
  · exact .inr h
  · cases h
    exact .inl rfl

/-- Literals are shown as `u8` wherever they do not fit. -/
structure LiteralsShownAsU8 : Prop where
  /-- What a statement has received, if it is reported, is a `u8`. -/
  value : ∀ (s : Stmt) (value : Expr) (c : Checker) (e : TypeError), s.value? = some value →
    value.typeIn c.environment = .ok .literal → error? (s.check c) = some e → e.ReceivesU8
  left : ∀ (env : Environment) (op : Comparison) (left right : Expr) (p : Position) (t : Ty)
    (e : TypeError), left.typeIn env = .ok .literal → right.typeIn env = .ok t →
    (Expr.compare op left right p).typeIn env = .error e → e = .single (.mismatch .u8 t) p
  right : ∀ (env : Environment) (op : Comparison) (left right : Expr) (p : Position) (t : Ty)
    (e : TypeError), left.typeIn env = .ok t → right.typeIn env = .ok .literal →
    (Expr.compare op left right p).typeIn env = .error e → e = .single (.mismatch t .u8) p
  /-- The first argument is reported with `u8`, or an argument behind it is reported. -/
  argument : ∀ (env : Environment) (a : Expr) (args : List Expr) (t : Ty) (parameters : List Ty)
    (e : TypeError), a.typeIn env = .ok .literal →
    Expr.checkArguments env (a :: args) (t :: parameters) = .error e →
    e = .single (.mismatch t .u8) a.position ∨ Expr.checkArguments env args parameters = .error e

theorem literalsShownAsU8 : LiteralsShownAsU8 where
  value s value c e hs hvalue he := s.receivesU8 hs hvalue he
  left env op left right p t e hleft hright h := by
    obtain ⟨hcompare, rfl⟩ := Expr.compare_error hleft hright h
    have hne : t ≠ .literal := by
      rintro rfl
      cases hcompare
    rw [Ty.defaulted_eq hne]
    rfl
  right env op left right p t e hleft hright h := by
    obtain ⟨hcompare, rfl⟩ := Expr.compare_error hleft hright h
    have hne : t ≠ .literal := by
      rintro rfl
      cases hcompare
    rw [Ty.defaulted_eq hne]
    rfl
  argument env a args t parameters e ha h := Expr.checkArguments_error ha h

namespace Program

/-- The type of a literal never leaves checking. Checking a program that was read goes
from the initial state through the listed ones, change by change, and in none of them a
scope binds a variable to a type with a literal in it. Nor does any leaf of its error
show such a type: a literal is shown as `u8`. -/
theorem literal_stays_inside {tokens : List Token} {p : Program}
    (hread : Program.ofTokens tokens = .ok p) :
    Leads Checker.initial p.states (after (p.check Checker.initial)) ∧
    (∀ c ∈ Checker.initial :: p.states, ∀ scope ∈ c.environment.scopes,
      ∀ x t, (x, t) ∈ scope.vars.entries → ¬ Ty.literal.PartOf t) ∧
    (∀ e, p.typeCheck = .error e → ∀ leaf ∈ e.leaves, ∀ t ∈ leaf.1.types,
      ¬ Ty.literal.PartOf t) ∧
    LiteralsShownAsU8 := by
  have hshaped := Program.ofTokens_shaped hread
  refine ⟨p.leads_states, fun c hc scope hscope x t hentry => ?_, fun e he => ?_,
    literalsShownAsU8⟩
  · have hsettled : c.Settled := by
      rcases List.mem_cons.mp hc with rfl | hc
      · exact Checker.settled_initial
      · exact states_settled hshaped c hc
    exact hsettled.environment.vars scope hscope (x, t) hentry
  · exact typeCheck_settled hshaped he

/-- Literals where other types are wanted, and one that becomes an `i8`. -/
theorem literal_stays_inside_mixed : ∃ (tokens : List Token) (p : Program) (e : TypeError),
    Program.ofTokens tokens = .ok p ∧ p.typeCheck = .error e ∧
    e.leaves = [(.mismatch .bool .u8, ⟨2, 5⟩), (.mismatch .bool .u8, ⟨3, 8⟩),
      (.mismatch .bool .u8, ⟨7, 16⟩), (.mismatch .bool .u8, ⟨8, 5⟩)] ∧
    (∀ leaf ∈ e.leaves, ∀ t ∈ leaf.1.types, ¬ Ty.literal.PartOf t) ∧
    (∃ c ∈ p.states, c.environment.findVariable? "c" = some .i8) ∧
    (∀ c ∈ Checker.initial :: p.states, ∀ scope ∈ c.environment.scopes,
      ∀ x t, (x, t) ∈ scope.vars.entries → ¬ Ty.literal.PartOf t) := by
  let source := "def f(a: u8) -> bool:
    let b: bool = 1
    if 2:
        a = 3
    if a == 3:
        let c: i8 = 4
        f(true == 5)
    return 6
"
  have hchecked : (Token.scan source).toOption.bind (fun tokens =>
      (Program.ofTokens tokens).toOption.map fun p => (p.typeCheck.mapError TypeError.leaves,
        p.states.any fun c => c.environment.findVariable? "c" == some .i8)) =
    some (.error [(.mismatch .bool .u8, ⟨2, 5⟩), (.mismatch .bool .u8, ⟨3, 8⟩),
      (.mismatch .bool .u8, ⟨7, 16⟩), (.mismatch .bool .u8, ⟨8, 5⟩)], true) := by decide +kernel
  obtain ⟨tokens, -, hchecked⟩ := Option.bind_eq_some_iff.mp hchecked
  obtain ⟨p, hp, hchecked⟩ := Option.map_eq_some_iff.mp hchecked
  obtain ⟨herror, hstates⟩ := Prod.mk.inj hchecked
  obtain ⟨e, hcheck, hleaves⟩ := Result.mapError_error.mp herror
  obtain ⟨c, hc, hfind⟩ := List.any_eq_true.mp hstates
  have hread := Result.ok_of_toOption hp
  obtain ⟨-, hscopes, herrors, -⟩ := literal_stays_inside hread
  exact ⟨tokens, p, e, hread, hcheck, hleaves, herrors e hcheck, ⟨c, hc, by simpa using hfind⟩,
    hscopes⟩

end Program

end Octet
