import Octet.Proofs.Tree.Positions
import Octet.Proofs.Typing.Checks

/-!
Type errors come in the order of the text. Checking goes through a program from
its beginning to its end and reports each fault at a position of what is being
checked, so that the positions of the faults are found in the same order among
the positions of the program.

A function is reported twice at the same position if its name was taken and its
header is wrong too. Apart from that no position is reported twice.
-/

namespace Octet

/-! ### Errors and positions -/

namespace TypeError

/-- The error is made of faults, and these stand at some of the positions, in the
same order. -/
structure Reports (e : TypeError) (ps : List Position) : Prop where
  nonempty : e.leaves ≠ []
  sublist : (e.leaves.map Prod.snd).Sublist ps

theorem reports_single {fault : TypeFault} {p : Position} {ps : List Position} (h : p ∈ ps) :
    (single fault p).Reports ps :=
  ⟨List.cons_ne_nil _ _, List.singleton_sublist.mpr h⟩

theorem Reports.mono {e : TypeError} {ps qs : List Position} (h : e.Reports ps)
    (hsub : ps.Sublist qs) : e.Reports qs :=
  ⟨h.nonempty, h.sublist.trans hsub⟩

theorem leavesAll_append (es fs : List TypeError) :
    leavesAll (es ++ fs) = leavesAll es ++ leavesAll fs := by
  induction es with
  | nil => rfl
  | cons e es ih => rw [List.cons_append, leavesAll, leavesAll, ih, List.append_assoc]

structure ReportsAll (es : List TypeError) (ps : List Position) : Prop where
  nonempty : ∀ e ∈ es, e.leaves ≠ []
  sublist : ((leavesAll es).map Prod.snd).Sublist ps

theorem reportsAll_toList {error : Option TypeError} {ps : List Position}
    (h : ∀ e ∈ error, e.Reports ps) : ReportsAll error.toList ps := by
  cases error with
  | none => exact ⟨nofun, List.nil_sublist _⟩
  | some e =>
      have he := h e rfl
      refine ⟨by simpa using he.nonempty, ?_⟩
      simpa [leavesAll] using he.sublist

theorem ReportsAll.append {es fs : List TypeError} {ps qs : List Position}
    (h : ReportsAll es ps) (h' : ReportsAll fs qs) : ReportsAll (es ++ fs) (ps ++ qs) := by
  refine ⟨List.forall_mem_append.mpr ⟨h.nonempty, h'.nonempty⟩, ?_⟩
  rw [leavesAll_append, List.map_append]
  exact h.sublist.append h'.sublist

theorem ReportsAll.combined {es : List TypeError} {ps : List Position} (h : ReportsAll es ps)
    (hne : es ≠ []) : (TypeError.combined es).Reports ps := by
  refine ⟨fun hnil => ?_, h.sublist⟩
  obtain ⟨e, es, rfl⟩ := List.exists_cons_of_ne_nil hne
  exact h.nonempty e (by simp) (List.append_eq_nil_iff.mp hnil).1

end TypeError

open TypeError (Reports ReportsAll reports_single reportsAll_toList)

/-! ### Expressions -/

theorem Environment.variableType_reports {env : Environment} {x : String} {p : Position}
    {ps : List Position} {err : TypeError} (h : env.variableType x p = .error err) (hp : p ∈ ps) :
    err.Reports ps := by
  unfold Environment.variableType at h
  split at h
  · cases h
  · cases h
    exact reports_single hp

theorem Environment.resolve_reports {env : Environment} {t : Ty} {p : Position}
    {ps : List Position} {err : TypeError} (h : env.resolve t p = .error err) (hp : p ∈ ps) :
    err.Reports ps := by
  unfold Environment.resolve at h
  split at h
  · unfold Environment.namedType at h
    split at h
    · cases h
    · cases h
      exact reports_single hp
  · cases h

theorem Environment.declare_reports {env : Environment} {x : String} {t : Ty} {p : Position}
    {ps : List Position} {err : TypeError} (h : env.declare x t p = .error err) (hp : p ∈ ps) :
    err.Reports ps := by
  rcases Result.bind_error.mp h with h | ⟨scope, -, h⟩
  · unfold Scope.declare at h
    split at h
    · cases h
      exact reports_single hp
    · cases h
  · cases h

namespace Expr

theorem variableType_reports {env : Environment} {x : String} {p : Position} {err : TypeError}
    (h : variableType env x p = .error err) : err.Reports [p] := by
  rcases Result.bind_error.mp h with h | ⟨t, -, h⟩
  · exact Environment.variableType_reports h (by simp)
  · split at h
    · cases h
      exact reports_single (by simp)
    · cases h

mutual

/-- An expression is wrong at one of its positions. -/
theorem typeIn_reports {env : Environment} {err : TypeError} :
    ∀ {e : Expr}, e.typeIn env = .error err → err.Reports e.positions
  | number _ _, h | boolean _ _, h => by
      rw [typeIn] at h
      cases h
  | var _ _, h => by
      rw [typeIn] at h
      exact variableType_reports h
  | negate _ _, h => by
      rw [typeIn] at h
      rcases Result.bind_error.mp h with h | ⟨t, -, h⟩
      · exact (typeIn_reports h).mono (List.sublist_cons_self _ _)
      · split at h
        · cases h
        · cases h
          exact reports_single (by simp [positions])
  | add left right _, h => by
      have hleft := left.position_mem_positions
      have hright := right.position_mem_positions
      rw [typeIn] at h
      rcases Result.bind_error.mp h with h | ⟨s, -, h⟩
      · exact (typeIn_reports h).mono (List.sublist_append_left _ _)
      · rcases Result.bind_error.mp h with h | ⟨t, -, h⟩
        · exact (typeIn_reports h).mono
            ((List.sublist_cons_self _ _).trans (List.sublist_append_right _ _))
        · -- An operand that is no number is reported at its own position.
          split at h
          · cases h
            exact reports_single (by simp [positions, hleft])
          · split at h
            · cases h
              exact reports_single (by simp [positions, hright])
            · split at h
              · cases h
              · cases h
                exact reports_single (by simp [positions])
  | compare _ _ _ _, h => by
      rw [typeIn] at h
      rcases Result.bind_error.mp h with h | ⟨s, -, h⟩
      · exact (typeIn_reports h).mono (List.sublist_append_left _ _)
      · rcases Result.bind_error.mp h with h | ⟨t, -, h⟩
        · exact (typeIn_reports h).mono
            ((List.sublist_cons_self _ _).trans (List.sublist_append_right _ _))
        · split at h
          · cases h
          · cases h
            exact reports_single (by simp [positions])
  | call _ args p, h => by
      have hp : p ∈ p :: positionsAll args := by simp
      rw [typeIn] at h
      rcases Result.bind_error.mp h with h | ⟨t, -, h⟩
      · exact Environment.variableType_reports h hp
      · split at h
        · split at h
          · cases h
            exact reports_single hp
          · split at h
            · cases h
              exact reports_single hp
            · rcases Result.bind_error.mp h with h | ⟨u, -, h⟩
              · exact (checkArguments_reports h).mono (List.sublist_cons_self _ _)
              · cases h
        · cases h
          exact reports_single hp

theorem checkArguments_reports {env : Environment} {err : TypeError} :
    ∀ {args : List Expr} {ts : List Ty}, checkArguments env args ts = .error err →
      err.Reports (positionsAll args)
  | [], _, h => by
      rw [checkArguments] at h
      · cases h
      · simp
  | a :: _, [], h => by
      rw [checkArguments] at h
      · cases h
      · simp
  | a :: args, t :: ts, h => by
      rw [checkArguments] at h
      rcases Result.bind_error.mp h with h | ⟨s, -, h⟩
      · exact (typeIn_reports h).mono (List.sublist_append_left _ _)
      · split at h
        · exact (checkArguments_reports h).mono (List.sublist_append_right _ _)
        · cases h
          exact reports_single (List.mem_append_left _ a.position_mem_positions)

end

end Expr

/-! ### How checks end -/

namespace Check

variable {α β : Type} {Q : α → Prop} {R : β → Prop} {E : TypeError → Prop}

/-- How a check ends, whatever it starts from: with a value that has the first
property, or with an error that has the second one. -/
structure Ends (x : Check α) (Q : α → Prop) (E : TypeError → Prop) : Prop where
  value : ∀ c a c', x c = .ok a c' → Q a
  error : ∀ c e c', x c = .error e c' → E e

theorem ends_of_ok {x : Check α} (h : ∀ c, ∃ a c', x c = .ok a c' ∧ Q a) : x.Ends Q E := by
  constructor
  · intro c a c' hx
    obtain ⟨b, c'', hb, hQ⟩ := h c
    rw [hb] at hx
    cases hx
    exact hQ
  · intro c e c' hx
    obtain ⟨b, c'', hb, -⟩ := h c
    rw [hb] at hx
    cases hx

theorem ends_pure {a : α} (h : Q a) : (pure a : Check α).Ends Q E :=
  ends_of_ok fun c => ⟨a, c, rfl, h⟩

theorem ends_get : (get : Check Checker).Ends (fun _ => True) E :=
  ends_of_ok fun c => ⟨c, c, rfl, trivial⟩

theorem ends_modify (f : Checker → Checker) : (modify f : Check PUnit).Ends (fun _ => True) E :=
  ends_of_ok fun c => ⟨_, f c, rfl, trivial⟩

theorem ends_throw {e : TypeError} (h : E e) : (throw e : Check α).Ends Q E := by
  refine ⟨fun c a c' hx => (throw_ok.mp hx).elim, fun c e' c' hx => ?_⟩
  cases (show EStateM.Result.error e c = .error e' c' from hx)
  exact h

theorem Ends.bind {x : Check α} {f : α → Check β} (hx : x.Ends Q E)
    (hf : ∀ a, Q a → (f a).Ends R E) : (x >>= f).Ends R E := by
  constructor
  · intro c b c'' h
    obtain ⟨a, c', ha, hb⟩ := bind_ok.mp h
    exact (hf a (hx.value c a c' ha)).value c' b c'' hb
  · intro c e c'' h
    change EStateM.bind x f c = _ at h
    unfold EStateM.bind at h
    cases hc : x c with
    | ok a c' =>
        rw [hc] at h
        exact (hf a (hx.value c a c' hc)).error c' e c'' h
    | error e' c' =>
        rw [hc] at h
        cases h
        exact hx.error c e c'' hc

theorem Ends.weaken {x : Check α} {F : TypeError → Prop} (h : x.Ends Q E) (hEF : ∀ e, E e → F e) :
    x.Ends Q F :=
  ⟨h.value, fun c e c' hx => hEF e (h.error c e c' hx)⟩

theorem ends_ask {f : Environment → Except TypeError α}
    (h : ∀ env e, f env = .error e → E e) : (ask f).Ends (fun _ => True) E := by
  refine ⟨fun _ _ _ _ => trivial, fun c e c' hx => ?_⟩
  unfold ask at hx
  split at hx
  · cases hx
  · next hf =>
      cases hx
      exact h _ e hf

theorem ends_update {f : Environment → Except TypeError Environment}
    (h : ∀ env e, f env = .error e → E e) : (update f).Ends (fun _ => True) E := by
  refine ⟨fun _ _ _ _ => trivial, fun c e c' hx => ?_⟩
  unfold update at hx
  split at hx
  · cases hx
  · next hf =>
      cases hx
      exact h _ e hf

theorem Ends.inScope {x : Check α} (h : x.Ends Q E) : (Check.inScope x).Ends Q E := by
  constructor
  · intro c a c' hx
    obtain ⟨c₁, hc, -⟩ := inScope_ok.mp hx
    exact h.value _ a c₁ hc
  · intro c e c' hx
    unfold Check.inScope at hx
    split at hx
    · cases hx
    · next c₁ hc =>
        cases hx
        exact h.error _ e c₁ hc

/-- The error of a check as a value. -/
theorem Ends.failure? {x : Check Unit} {F : TypeError → Prop} (h : x.Ends (fun _ => True) E) :
    (Check.failure? x).Ends (fun error => ∀ e ∈ error, E e) F := by
  apply ends_of_ok
  intro c
  unfold Check.failure?
  cases hc : x c with
  | ok u c' => exact ⟨none, c', rfl, nofun⟩
  | error e c' =>
      refine ⟨some e, c', rfl, ?_⟩
      rintro _ ⟨⟩
      exact h.error c e c' hc

/-- Failing if a condition holds. -/
theorem ends_unless {b : Prop} [Decidable b] {e : TypeError} {f : PUnit → Check α} {x : Check α}
    (he : E e) (hx : x.Ends Q E) : (if b then throw e >>= f else x).Ends Q E := by
  split
  · exact (ends_throw (Q := fun _ => False) he).bind fun _ h => h.elim
  · exact hx

theorem ends_unless_end {b : Prop} [Decidable b] {e : TypeError} (he : E e) :
    (if b then throw e else pure PUnit.unit : Check PUnit).Ends (fun _ => True) E := by
  split
  · exact ends_throw he
  · exact ends_pure trivial

/-- Errors that are thrown together. -/
theorem ends_combine {errors : List TypeError} (h : errors ≠ [] → E (.combined errors)) :
    (combine errors).Ends (fun _ => True) E := by
  cases errors with
  | nil => exact ends_pure trivial
  | cons e es => exact ends_throw (h (List.cons_ne_nil e es))

end Check

open Check

/-! ### Statements -/

namespace Stmt

theorem typeOf_ends {value : Expr} {ps : List Position} (h : value.positions.Sublist ps) :
    (typeOf value).Ends (fun _ => True) (·.Reports ps) :=
  ends_ask fun _ _ herr => (Expr.typeIn_reports herr).mono h

theorem checkDeclare_ends (x : String) (t : Ty) (value : Expr) (p : Position) :
    (checkDeclare x t value p).Ends (fun _ => True) (·.Reports (p :: value.positions)) := by
  have hp : p ∈ p :: value.positions := by simp
  refine (typeOf_ends (List.sublist_cons_self _ _)).bind fun received _ => ?_
  refine ends_get.bind fun c _ => ends_unless (reports_single hp) ?_
  refine (ends_ask fun env e h => Environment.resolve_reports h hp).bind fun expected _ => ?_
  exact (ends_modify _).bind fun _ _ => ends_unless_end (reports_single hp)

theorem checkAssign_ends (x : String) (value : Expr) (p : Position) :
    (checkAssign x value p).Ends (fun _ => True) (·.Reports (p :: value.positions)) := by
  have hp : p ∈ p :: value.positions := by simp
  refine (typeOf_ends (List.sublist_cons_self _ _)).bind fun received _ => ?_
  refine (ends_ask fun env e h => Environment.variableType_reports h hp).bind fun expected _ => ?_
  exact ends_unless_end (reports_single hp)

theorem checkRet_ends (value : Expr) (p : Position) :
    (checkRet value p).Ends (fun _ => True) (·.Reports (p :: value.positions)) := by
  refine (typeOf_ends (List.sublist_cons_self _ _)).bind fun received _ => ?_
  refine ends_get.bind fun c _ => ends_unless (reports_single (by simp)) ?_
  exact ends_modify _

theorem checkCondition_ends (condition : Expr) :
    (checkCondition condition).Ends (fun _ => True) (·.Reports condition.positions) := by
  refine (typeOf_ends (List.Sublist.refl _)).bind fun received _ => ?_
  exact ends_unless_end (reports_single condition.position_mem_positions)

mutual

/-- A statement is wrong at some of its positions. -/
theorem check_ends : ∀ s : Stmt, s.check.Ends (fun _ => True) (·.Reports s.positions)
  | block body _ => by
      rw [check]
      exact (failures_ends body).inScope.bind fun errors herrors => ends_combine herrors.combined
  | ifThen condition consequence _ => by
      rw [check]
      refine Ends.bind (Q := fun _ => True) ?_ fun _ _ => ?_
      · exact (checkCondition_ends condition).weaken fun e he =>
          he.mono ((List.sublist_append_left _ _).trans (List.sublist_cons_self _ _))
      · exact (check_ends consequence).weaken fun e he =>
          he.mono ((List.sublist_append_right _ _).trans (List.sublist_cons_self _ _))
  | print value _ => by
      rw [check]
      exact (typeOf_ends (List.sublist_cons_self _ _)).bind fun _ _ => ends_pure trivial
  | declare x t value p => by
      rw [check]
      exact checkDeclare_ends x t value p
  | assign x value p => by
      rw [check]
      exact checkAssign_ends x value p
  | ret value p => by
      rw [check]
      exact checkRet_ends value p
  | evaluate value => by
      rw [check]
      exact (typeOf_ends (List.Sublist.refl _)).bind fun _ _ => ends_pure trivial

/-- The errors of statements come in the order of the statements. -/
theorem failures_ends {E : TypeError → Prop} :
    ∀ body : List Stmt, (failures body).Ends (ReportsAll · (positionsAll body)) E
  | [] => by
      rw [failures]
      exact ends_pure ⟨nofun, List.nil_sublist _⟩
  | s :: body => by
      rw [failures]
      refine (check_ends s).failure?.bind fun error herror => ?_
      refine (failures_ends body).bind fun errors herrors => ends_pure ?_
      exact (reportsAll_toList herror).append herrors

end

end Stmt

/-! ### Functions -/

namespace Function

theorem declareParameters_ends : ∀ ps : List Parameter,
    (declareParameters ps).Ends (fun _ => True) (·.Reports (ps.map Parameter.position))
  | [] => ends_pure trivial
  | p :: ps => by
      have hp : p.position ∈ (p :: ps).map Parameter.position := by simp
      rw [declareParameters]
      refine (ends_ask fun env e h => Environment.resolve_reports h hp).bind fun type _ => ?_
      refine (ends_update fun env e h => Environment.declare_reports h hp).bind fun _ _ => ?_
      exact (declareParameters_ends ps).weaken fun e he => he.mono (List.sublist_cons_self _ _)

theorem checkBody_ends (f : Function) :
    f.checkBody.Ends (fun _ => True) (·.Reports f.positions) := by
  have hf := f.position_mem_positions
  refine (ends_ask fun env e h => Environment.resolve_reports h hf).bind fun returns _ => ?_
  refine (ends_modify _).bind fun _ _ => ?_
  refine Ends.bind (Q := fun _ => True) ?_ fun _ _ => ?_
  · exact (declareParameters_ends f.parameters).weaken fun e he =>
      he.mono ((List.sublist_append_left _ _).trans (List.sublist_cons_self _ _))
  · refine Ends.bind (Q := fun _ => True) ?_ fun _ _ => ?_
    · exact (Stmt.check_ends f.body.toStmt).weaken fun e he =>
        he.mono ((List.sublist_append_right _ _).trans (List.sublist_cons_self _ _))
    · exact ends_get.bind fun c _ => ends_unless_end (reports_single hf)

/-- A function is wrong at some of its positions. -/
theorem check_ends (f : Function) : f.check.Ends (fun _ => True) (·.Reports f.positions) :=
  (ends_modify _).bind fun _ _ => (ends_modify _).bind fun _ _ => f.checkBody_ends.inScope

/-- A name that was taken is reported where its function is. -/
theorem declareAll_ends {E : TypeError → Prop} : ∀ fs : List Function, (declareAll fs).Ends
    (List.Forall₂ (fun f error => ∀ e ∈ error, e.Reports [f.position]) fs) E
  | [] => ends_pure .nil
  | f :: fs => by
      rw [declareAll]
      have hdeclare : (Check.update fun env => env.declare f.name (f.visibleSignature env)
          f.position).Ends (fun _ => True) (·.Reports [f.position]) :=
        ends_update fun env e h => Environment.declare_reports h (by simp)
      refine hdeclare.failure?.bind fun error herror => ?_
      exact (declareAll_ends fs).bind fun errors herrors => ends_pure (.cons herror herrors)

/-- What is wrong with each of the functions: that its name was taken, and what
its check finds behind the checks of those in front of it. -/
def faults : List (Function × Option TypeError) → Check (List (List TypeError))
  | [] => pure []
  | (f, redefinition) :: fs => do
      let error ← Check.failure? f.check
      let groups ← faults fs
      return (redefinition.toList ++ error.toList) :: groups

/-- The failures of functions are what is wrong with each of them, one after the
other. -/
theorem failures_eq : ∀ fs : List (Function × Option TypeError),
    failures fs = List.flatten <$> faults fs
  | [] => rfl
  | (f, redefinition) :: fs => by
      rw [failures, faults, failures_eq fs]
      simp [map_bind]

theorem faults_ends {E : TypeError → Prop} {fs : List Function} {errors : List (Option TypeError)}
    (h : List.Forall₂ (fun f error => ∀ e ∈ error, e.Reports [f.position]) fs errors) :
    (faults (fs.zip errors)).Ends
      (List.Forall₂ (fun f es => ReportsAll es (f.position :: f.positions)) fs) E := by
  induction h with
  | nil => exact ends_pure .nil
  | @cons f redefinition fs errors hredefinition _ ih =>
      rw [List.zip_cons_cons, faults]
      refine f.check_ends.failure?.bind fun error herror => ?_
      refine ih.bind fun groups hgroups => ends_pure (.cons ?_ hgroups)
      exact (reportsAll_toList hredefinition).append (reportsAll_toList herror)

end Function

namespace Program

def faults (p : Program) : Check (List (List TypeError)) := do
  let redefinitions ← Function.declareAll p.functions
  Function.faults (p.functions.zip redefinitions)

theorem faults_ends {E : TypeError → Prop} (p : Program) : p.faults.Ends
    (List.Forall₂ (fun f es => ReportsAll es (f.position :: f.positions)) p.functions) E :=
  (Function.declareAll_ends p.functions).bind fun _ h => Function.faults_ends h

/-- Checking a program combines what is wrong with its functions. -/
theorem typeCheck_of_faults {p : Program} {groups : List (List TypeError)} {c : Checker}
    (h : p.faults Checker.initial = .ok groups c) :
    p.typeCheck = TypeError.combine groups.flatten := by
  have hcheck : p.check = p.faults >>= fun groups => Check.combine groups.flatten := by
    simp [check, faults, Function.failures_eq]
  have hrun : p.check Checker.initial = Check.combine groups.flatten c := by
    rw [hcheck]
    change EStateM.bind _ _ _ = _
    rw [EStateM.bind, h]
  rw [typeCheck, hrun]
  cases groups.flatten <;> rfl

/-- The error of a program is what is wrong with its functions. -/
theorem typeCheck_error {p : Program} {e : TypeError} (h : p.typeCheck = .error e) :
    ∃ groups c, p.faults Checker.initial = .ok groups c ∧ groups.flatten ≠ [] ∧
      e = .combined groups.flatten := by
  cases hfaults : p.faults Checker.initial with
  | error e' c => exact ((p.faults_ends (E := fun _ => False)).error _ e' c hfaults).elim
  | ok groups c =>
      refine ⟨groups, c, rfl, ?_⟩
      rw [typeCheck_of_faults hfaults] at h
      generalize groups.flatten = errors at h ⊢
      cases errors with
      | nil => cases h
      | cons first errors =>
          cases h
          exact ⟨List.cons_ne_nil _ _, rfl⟩

/-- The positions of a function lie between the function and the next one. -/
theorem positions_between {p : Program} (h : p.positions.Pairwise Token.Before) {i : Nat}
    {f : Function} (hf : p.functions[i]? = some f) {q : Position} (hq : q ∈ f.positions) :
    Token.UpTo f.position q ∧
      ∀ g, p.functions[i + 1]? = some g → Token.Before q g.position := by
  obtain ⟨hinside, hbetween⟩ := List.pairwise_flatMap.mp h
  constructor
  · have hsorted := hinside f (List.mem_of_getElem? hf)
    rcases List.mem_cons.mp hq with rfl | hq
    · exact .refl _
    · exact (List.rel_of_pairwise_cons hsorted hq).upTo
  · intro g hg
    obtain ⟨hi, rfl⟩ := List.getElem?_eq_some_iff.mp hf
    obtain ⟨hi', rfl⟩ := List.getElem?_eq_some_iff.mp hg
    have hnext := List.pairwise_iff_getElem.mp hbetween i (i + 1) hi hi' (Nat.lt_succ_self i)
    exact hnext q hq _ (Function.position_mem_positions _)

/-- The positions of a program with those of its functions twice. -/
theorem pairwise_upTo {p : Program} (h : p.positions.Pairwise Token.Before) :
    (p.functions.flatMap fun f => f.position :: f.positions).Pairwise Token.UpTo := by
  obtain ⟨hinside, hbetween⟩ := List.pairwise_flatMap.mp h
  refine List.pairwise_flatMap.mpr ⟨fun f hf => ?_, hbetween.imp fun {f g} hfg q hq r hr => ?_⟩
  · refine List.pairwise_cons.mpr ⟨fun q hq => ?_, (hinside f hf).imp Token.Before.upTo⟩
    obtain ⟨i, hi⟩ := List.getElem?_of_mem hf
    exact (positions_between h hi hq).1
  · have hbefore := hfg q (Function.mem_positions_of_mem_cons hq) r
      (Function.mem_positions_of_mem_cons hr)
    exact hbefore.upTo

theorem reportsAll_flatten {fs : List Function} {groups : List (List TypeError)}
    (h : List.Forall₂ (fun f es => ReportsAll es (f.position :: f.positions)) fs groups) :
    ReportsAll groups.flatten (fs.flatMap fun f => f.position :: f.positions) := by
  induction h with
  | nil => exact ⟨nofun, List.nil_sublist _⟩
  | cons hes _ ih => exact hes.append ih

/-- A program is wrong at its functions and at positions inside them. -/
theorem typeCheck_reports {p : Program} {e : TypeError} (h : p.typeCheck = .error e) :
    e.Reports (p.functions.flatMap fun f => f.position :: f.positions) := by
  obtain ⟨groups, c, hfaults, hne, rfl⟩ := typeCheck_error h
  have hgroups := (p.faults_ends (E := fun _ => True)).value _ groups c hfaults
  exact (reportsAll_flatten hgroups).combined hne

/-- Type errors come in the order of the text, and those of a function lie between
its beginning and that of the next one. -/
theorem typeCheck_inOrder {source : String} {p : Program} {e : TypeError}
    (hread : ofSource source = .ok p) (h : p.typeCheck = .error e) :
    (e.leaves.map Prod.snd).Pairwise Token.UpTo ∧
      ∃ groups c, p.faults Checker.initial = .ok groups c ∧ e = .combined groups.flatten ∧
        groups.length = p.functions.length ∧
        ∀ i f es, p.functions[i]? = some f → groups[i]? = some es →
          ∀ leaf ∈ TypeError.leavesAll es, Token.UpTo f.position leaf.2 ∧
            ∀ g, p.functions[i + 1]? = some g → Token.Before leaf.2 g.position := by
  have hsorted := pairwise_positions_of_ofSource hread
  constructor
  · exact (pairwise_upTo hsorted).sublist (typeCheck_reports h).sublist
  · obtain ⟨groups, c, hfaults, -, rfl⟩ := typeCheck_error h
    have hgroups := (p.faults_ends (E := fun _ => True)).value _ groups c hfaults
    refine ⟨groups, c, hfaults, rfl, hgroups.length_eq.symm, fun i f es hf hes leaf hleaf => ?_⟩
    have hreports : ReportsAll es (f.position :: f.positions) := by
      obtain ⟨hi, rfl⟩ := List.getElem?_eq_some_iff.mp hf
      obtain ⟨hi', rfl⟩ := List.getElem?_eq_some_iff.mp hes
      exact hgroups.get hi hi'
    have hmem := hreports.sublist.subset (List.mem_map_of_mem hleaf)
    exact positions_between hsorted hf (Function.mem_positions_of_mem_cons hmem)

/-- Faults in a function and in the blocks of its body, and a second function of
the same name whose header is wrong too. -/
theorem typeCheck_inOrder_redefined : ∃ (p : Program) (e : TypeError),
    e.leaves.map Prod.snd = [⟨2, 5⟩, ⟨3, 10⟩, ⟨6, 21⟩, ⟨7, 12⟩, ⟨8, 1⟩, ⟨8, 1⟩] ∧
    (e.leaves.map Prod.snd).Pairwise Token.UpTo ∧
    ∃ groups c, p.faults Checker.initial = .ok groups c ∧ e = .combined groups.flatten ∧
      groups.length = 2 := by
  let source := "def f() -> u8:
    let a: u8 = true
    if a + 1:
        b = 2
    if true:
        let c: u8 = d
    return c
def f() -> thing:
    f()
"
  have hfaults : (ofSource source).toOption.map (fun p =>
      (p.functions.length, p.typeCheck.mapError fun e => e.leaves.map Prod.snd)) =
    some (2, .error [⟨2, 5⟩, ⟨3, 10⟩, ⟨6, 21⟩, ⟨7, 12⟩, ⟨8, 1⟩, ⟨8, 1⟩]) := by decide +kernel
  obtain ⟨p, hp, hshape⟩ := Option.map_eq_some_iff.mp hfaults
  obtain ⟨hlength, herror⟩ := Prod.mk.inj hshape
  cases hcheck : p.typeCheck with
  | ok u =>
      rw [hcheck] at herror
      cases herror
  | error e =>
      rw [hcheck] at herror
      obtain ⟨hsorted, groups, c, hgroups, he, hcount, -⟩ :=
        typeCheck_inOrder (Result.ok_of_toOption hp) hcheck
      exact ⟨p, e, Except.error.inj herror, hsorted, groups, c, hgroups, he, hcount.trans hlength⟩

end Program

end Octet
