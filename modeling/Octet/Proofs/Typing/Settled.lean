import Octet.Proofs.Typing.Traces

/-!
What checking knows and says without the type of a literal. A number alone has that
type for as long as nothing fixes its width, and no program can write it. A check that
starts where no variable has it, not even as a part of its type, ends in such a state,
and its error shows it nowhere.

`Check.Settles` is the form in which this is said of every check, and it passes through
the ways in which checks are put together.
-/

namespace Octet

open Check

/-! ### Types without literals -/

namespace Ty

/-- The first type is the second one, or a part of it. -/
inductive PartOf : Ty → Ty → Prop where
  | self (t : Ty) : PartOf t t
  | parameter {part t : Ty} {ps : List Ty} {r : Ty} : t ∈ ps → PartOf part t →
      PartOf part (.function ps r)
  | returns {part : Ty} {ps : List Ty} {r : Ty} : PartOf part r → PartOf part (.function ps r)

/-- The type is not that of a literal, and neither is any part of it. -/
def Settled (t : Ty) : Prop := ¬ literal.PartOf t

theorem Settled.function {ps : List Ty} {r : Ty} (hps : ∀ t ∈ ps, t.Settled) (hr : r.Settled) :
    (Ty.function ps r).Settled := by
  intro h
  cases h with
  | parameter hmem h => exact hps _ hmem h
  | returns h => exact hr h

theorem Settled.of_function {ps : List Ty} {r : Ty} (h : (Ty.function ps r).Settled) :
    (∀ t ∈ ps, t.Settled) ∧ r.Settled :=
  ⟨fun _ hmem hpart => h (.parameter hmem hpart), fun hpart => h (.returns hpart)⟩

theorem Written.settled {t : Ty} (h : t.Written) : t.Settled := by
  intro hpart
  cases hpart with
  | self => exact h
  | parameter => exact h
  | returns => exact h

theorem Settled.defaulted {t : Ty} (h : t.Settled) : t.defaulted.Settled := by
  cases t with
  | literal => exact (h (.self _)).elim
  | _ => exact h

/-- Only the type of a literal changes when it is fixed. -/
theorem settled_of_defaulted {t : Ty} (h : t.defaulted.Settled) (hne : t ≠ literal) :
    t.Settled := by
  cases t with
  | literal => exact (hne rfl).elim
  | _ => exact h

theorem sum?_some {s t whole : Ty} (h : s.sum? t = some whole) : whole = s ∨ whole = t := by
  unfold sum? at h
  split at h
  · exact .inr (Option.some.inj h).symm
  · exact .inl (Option.some.inj h).symm
  · exact .inl (Option.some.inj (Option.ite_none_right_eq_some.mp h).2).symm

theorem sum?_none {s t : Ty} (h : s.sum? t = none) : s ≠ literal ∧ t ≠ literal := by
  constructor
  · rintro rfl
    simp [sum?] at h
  · rintro rfl
    cases s <;> simp [sum?] at h

end Ty

def TypeFault.types : TypeFault → List Ty
  | mismatch expected received => [expected, received]
  | notNumerical got => [got]
  | undefinedType type => [type]
  | noReturn expected _ => [expected]
  | undefinedVariable _ | alreadyDefined _ | notFunction _ => []
  | tooManyArguments _ _ _ | notEnoughArguments _ _ _ => []

namespace TypeError

/-- No leaf of the error shows the type of a literal. -/
def Settled (e : TypeError) : Prop := ∀ leaf ∈ e.leaves, ∀ t ∈ leaf.1.types, t.Settled

theorem settled_single {fault : TypeFault} {p : Position} (h : ∀ t ∈ fault.types, t.Settled) :
    (single fault p).Settled := by
  intro leaf hleaf
  rw [leaves, List.mem_singleton] at hleaf
  exact hleaf ▸ h

/-- A fault that shows no types. -/
theorem settled_untyped {fault : TypeFault} {p : Position} (h : fault.types = []) :
    (single fault p).Settled :=
  settled_single (by simp [h])

theorem settled_mismatch {expected received : Ty} {p : Position} (he : expected.Settled)
    (hr : received.Settled) : (single (.mismatch expected received) p).Settled :=
  settled_single (List.forall_mem_cons.mpr ⟨he, List.forall_mem_singleton.mpr hr⟩)

/-- A type that is not a number's is not that of a literal. -/
theorem settled_notNumerical {t : Ty} {p : Position} (ht : t.defaulted.Settled)
    (hnumber : t.isNumerical = false) : (single (.notNumerical t) p).Settled := by
  have hne : t ≠ .literal := by
    rintro rfl
    cases hnumber
  exact settled_single (List.forall_mem_singleton.mpr (Ty.settled_of_defaulted ht hne))

theorem settled_combined {errors : List TypeError} (h : ∀ e ∈ errors, e.Settled) :
    (combined errors).Settled := by
  intro leaf hleaf
  rw [leaves, leavesAll_eq, List.mem_flatMap] at hleaf
  obtain ⟨e, hmem, hleaf⟩ := hleaf
  exact h e hmem leaf hleaf

end TypeError

open TypeError (settled_single settled_untyped settled_mismatch settled_notNumerical
  settled_combined)

/-! ### Expressions -/

/-- The computation has a value with the property, or an error that shows no literal. -/
def Answers {α : Type} (Q : α → Prop) : Except TypeError α → Prop
  | .ok a => Q a
  | .error e => e.Settled

theorem Answers.bind {α β : Type} {Q : α → Prop} {R : β → Prop} {x : Except TypeError α}
    {f : α → Except TypeError β} (hx : Answers Q x) (hf : ∀ a, Q a → Answers R (f a)) :
    Answers R (x >>= f) := by
  cases x with
  | ok a => exact hf a hx
  | error e => exact hx

/-- No type has a name, and no variable is bound to a type with a literal in it. -/
structure Environment.Settled (env : Environment) : Prop where
  plain : env.Plain
  vars : ∀ scope ∈ env.scopes, ∀ entry ∈ scope.vars.entries, entry.2.Settled

namespace Environment

variable {env : Environment}

theorem settled_empty : empty.Settled := by
  refine ⟨plain_empty, fun scope hscope entry hentry => ?_⟩
  rw [scopes, List.mem_singleton.mp hscope] at *
  cases hentry

theorem Settled.push (h : env.Settled) : (env.push Scope.empty).Settled := by
  refine ⟨h.plain.push, fun scope hscope => ?_⟩
  rcases List.mem_cons.mp hscope with rfl | hscope
  · exact fun entry hentry => nomatch hentry
  · exact h.vars scope hscope

theorem scopes_pop (env : Environment) : env.pop.scopes ⊆ env.scopes := by
  unfold pop
  split
  · exact List.Subset.refl _
  · next henclosing =>
      intro scope hscope
      rw [scopes, henclosing]
      exact List.mem_cons_of_mem _ hscope

theorem Settled.pop (h : env.Settled) : env.pop.Settled :=
  ⟨fun scope hscope => h.plain scope (env.scopes_pop hscope),
    fun scope hscope => h.vars scope (env.scopes_pop hscope)⟩

theorem Settled.setVariable (h : env.Settled) (x : String) {t : Ty} (ht : t.Settled) :
    (env.setVariable x t).Settled := by
  refine ⟨h.plain.setVariable x t, fun scope hscope => ?_⟩
  rcases List.mem_cons.mp hscope with rfl | hscope
  · refine List.forall_mem_cons.mpr ⟨ht, fun entry hentry => ?_⟩
    exact h.vars _ List.mem_cons_self entry (List.mem_of_mem_filter hentry)
  · exact h.vars scope (List.mem_cons_of_mem _ hscope)

theorem Settled.findVariable? (h : env.Settled) {x : String} {t : Ty}
    (hx : env.findVariable? x = some t) : t.Settled := by
  obtain ⟨scope, hscope, hfind⟩ := List.exists_of_findSome?_eq_some hx
  obtain ⟨before, behind, hentries, -⟩ := List.lookup_eq_some_iff.mp hfind
  exact h.vars scope hscope (x, t) (by simp [hentries])

theorem Settled.variableType (h : env.Settled) (x : String) (p : Position) :
    Answers Ty.Settled (env.variableType x p) := by
  unfold Environment.variableType
  split
  · next hx => exact h.findVariable? hx
  · exact settled_untyped rfl

theorem Settled.resolve (h : env.Settled) {t : Ty} (ht : t.Written) (p : Position) :
    Answers Ty.Settled (env.resolve t p) := by
  unfold Environment.resolve
  split
  · unfold Environment.namedType
    rw [findType?_plain h.plain]
    exact settled_single (List.forall_mem_singleton.mpr ht.settled)
  · exact ht.settled

end Environment

namespace Expr

variable {env : Environment}

mutual

/-- The type of an expression is that of a literal, or has no literal in it; and its
error shows none. -/
theorem typeIn_answers (h : env.Settled) : (e : Expr) →
    Answers (fun t => t.defaulted.Settled) (e.typeIn env)
  | number _ _ => by
      rw [typeIn]
      exact Ty.Written.settled (t := .u8) trivial
  | boolean _ _ => by
      rw [typeIn]
      exact Ty.Written.settled (t := .bool) trivial
  | var x p => by
      rw [typeIn]
      refine (h.variableType x p).bind fun t ht => ?_
      split
      · exact settled_untyped rfl
      · exact ht.defaulted
  | negate operand _ => by
      rw [typeIn]
      refine (typeIn_answers h operand).bind fun t ht => ?_
      split
      · exact Ty.Written.settled (t := .i8) trivial
      · next hnumber => exact settled_notNumerical ht (eq_false_of_ne_true hnumber)
  | add left right _ => by
      rw [typeIn]
      refine (typeIn_answers h left).bind fun s hs => (typeIn_answers h right).bind fun t ht => ?_
      split
      · next hnumber => exact settled_notNumerical hs (by simpa using hnumber)
      split
      · next hnumber => exact settled_notNumerical ht (by simpa using hnumber)
      split
      · next hsum =>
          rcases Ty.sum?_some hsum with rfl | rfl
          · exact hs
          · exact ht
      · next hsum =>
          obtain ⟨hs', ht'⟩ := Ty.sum?_none hsum
          exact settled_mismatch (Ty.settled_of_defaulted hs hs') (Ty.settled_of_defaulted ht ht')
  | compare _ left right _ => by
      rw [typeIn]
      refine (typeIn_answers h left).bind fun s hs => (typeIn_answers h right).bind fun t ht => ?_
      split
      · exact Ty.Written.settled (t := .bool) trivial
      · exact settled_mismatch hs ht
  | call x args p => by
      rw [typeIn]
      refine (h.variableType x p).bind fun t ht => ?_
      split
      · split
        · exact settled_untyped rfl
        split
        · exact settled_untyped rfl
        · obtain ⟨hparameters, hreturns⟩ := ht.of_function
          exact (checkArguments_answers h args hparameters).bind fun _ _ => hreturns.defaulted
      · exact settled_untyped rfl

theorem checkArguments_answers (h : env.Settled) : (args : List Expr) → {parameters : List Ty} →
    (∀ t ∈ parameters, t.Settled) → Answers (fun _ => True) (checkArguments env args parameters)
  | [], _, _ => by
      rw [checkArguments]
      · trivial
      · simp
  | _ :: _, [], _ => by
      rw [checkArguments]
      · trivial
      · simp
  | a :: args, t :: parameters, ht => by
      rw [checkArguments]
      obtain ⟨hfirst, hothers⟩ := List.forall_mem_cons.mp ht
      refine (typeIn_answers h a).bind fun s hs => ?_
      split
      · exact checkArguments_answers h args hothers
      · exact settled_mismatch hfirst hs

end

end Expr

/-! ### Checks -/

/-- What is known has no literal in it. -/
structure Checker.Settled (c : Checker) : Prop where
  environment : c.environment.Settled
  returnType : c.returnType.Settled

namespace Checker

variable {c : Checker}

theorem settled_initial : initial.Settled :=
  ⟨Environment.settled_empty, Ty.Written.settled (t := .void) trivial⟩

theorem Settled.setVariable (h : c.Settled) (x : String) {t : Ty} (ht : t.Settled) :
    (c.withEnvironment (c.environment.setVariable x t)).Settled :=
  ⟨h.environment.setVariable x ht, h.returnType⟩

theorem Settled.inside (h : c.Settled) : c.inside.Settled := ⟨h.environment.push, h.returnType⟩

theorem Settled.closed (h : c.Settled) : c.closed.Settled := ⟨h.environment.pop, h.returnType⟩

end Checker

namespace Check

variable {α β : Type} {Q : α → Prop} {R : β → Prop}

/-- The state behind a check has no literal in it; its value has the property, or its
error shows no literal. -/
def Concludes (Q : α → Prop) : EStateM.Result TypeError Checker α → Prop
  | .ok a c => c.Settled ∧ Q a
  | .error e c => c.Settled ∧ e.Settled

theorem Concludes.after {r : EStateM.Result TypeError Checker α} (h : Concludes Q r) :
    (after r).Settled := by
  cases r <;> exact h.1

theorem Concludes.error? {r : EStateM.Result TypeError Checker α} (h : Concludes Q r)
    {e : TypeError} (he : e ∈ error? r) : e.Settled := by
  cases r with
  | ok a c => cases he
  | error e' c =>
      cases he
      exact h.2

/-- Where it starts without literals, the check ends without them. -/
def Settles (Q : α → Prop) (x : Check α) : Prop := ∀ c, c.Settled → Concludes Q (x c)

theorem settles_pure {a : α} (h : Q a) : Settles Q (pure a) := fun _ hc => ⟨hc, h⟩

theorem settles_throw {e : TypeError} (h : e.Settled) : Settles Q (throw e) := fun _ hc => ⟨hc, h⟩

theorem settles_get : Settles Checker.Settled get := fun _ hc => ⟨hc, hc⟩

theorem settles_modify {f : Checker → Checker} (h : ∀ c, c.Settled → (f c).Settled) :
    Settles (fun _ => True) (modify f : Check PUnit) := fun c hc => ⟨h c hc, trivial⟩

theorem Settles.bind {x : Check α} {f : α → Check β} (hx : Settles Q x)
    (hf : ∀ a, Q a → Settles R (f a)) : Settles R (x >>= f) := by
  intro c hc
  have hfirst := hx c hc
  show Concludes R (EStateM.bind x f c)
  unfold EStateM.bind
  cases hr : x c with
  | ok a c₁ =>
      rw [hr] at hfirst
      exact hf a hfirst.2 c₁ hfirst.1
  | error e c₁ =>
      rw [hr] at hfirst
      exact hfirst

theorem settles_ask {f : Environment → Except TypeError α}
    (h : ∀ env : Environment, env.Settled → Answers Q (f env)) : Settles Q (ask f) := by
  intro c hc
  have hanswer := h c.environment hc.environment
  unfold ask
  cases hr : f c.environment with
  | ok a =>
      rw [hr] at hanswer
      exact ⟨hc, hanswer⟩
  | error e =>
      rw [hr] at hanswer
      exact ⟨hc, hanswer⟩

theorem settles_update {f : Environment → Except TypeError Environment}
    (h : ∀ env : Environment, env.Settled → Answers Environment.Settled (f env)) :
    Settles (fun _ => True) (update f) := by
  intro c hc
  have hanswer := h c.environment hc.environment
  unfold update
  cases hr : f c.environment with
  | ok env =>
      rw [hr] at hanswer
      exact ⟨⟨hanswer, hc.returnType⟩, trivial⟩
  | error e =>
      rw [hr] at hanswer
      exact ⟨hc, hanswer⟩

theorem Settles.inScope {x : Check α} (hx : Settles Q x) : Settles Q (inScope x) := by
  intro c hc
  have hinside := hx c.inside hc.inside
  unfold Checker.inside at hinside
  unfold Check.inScope
  cases hr : x (c.withEnvironment (c.environment.push Scope.empty)) with
  | ok a c₁ =>
      rw [hr] at hinside
      exact ⟨hinside.1.closed, hinside.2⟩
  | error e c₁ =>
      rw [hr] at hinside
      exact ⟨hinside.1.closed, hinside.2⟩

theorem Settles.failure? {x : Check Unit} (hx : Settles (fun _ => True) x) :
    Settles (fun error => ∀ e ∈ error, e.Settled) (failure? x) := by
  intro c hc
  rw [failure?_eq]
  exact ⟨(hx c hc).after, fun e he => (hx c hc).error? he⟩

theorem settles_unless {b : Prop} [Decidable b] {e : TypeError} {f : PUnit → Check α}
    {x : Check α} (he : e.Settled) (hx : Settles Q x) :
    Settles Q (if b then throw e >>= f else x) := by
  split
  · exact (settles_throw (Q := fun _ => False) he).bind fun _ h => h.elim
  · exact hx

theorem settles_unless_end {b : Prop} [Decidable b] {e : TypeError} (he : e.Settled) :
    Settles (fun _ => True) (if b then throw e else pure PUnit.unit : Check PUnit) := by
  split
  · exact settles_throw he
  · exact settles_pure trivial

theorem settles_combine {errors : List TypeError} (h : ∀ e ∈ errors, e.Settled) :
    Settles (fun _ => True) (combine errors) := by
  cases errors with
  | nil => exact settles_pure trivial
  | cons e es => exact settles_throw (settled_combined h)

theorem Settles.passing {Q : α → Prop} {x : Check α} {states : α → Checker → List Checker}
    (hx : Settles Q x) (h : ∀ a c, Q a → c.Settled → ∀ c' ∈ states a c, c'.Settled)
    {c : Checker} (hc : c.Settled) : ∀ c' ∈ passing states (x c), c'.Settled := by
  have hend := hx c hc
  cases hr : x c with
  | ok a c₁ =>
      rw [hr] at hend
      exact h a c₁ hend.2 hend.1
  | error e c₁ => exact nofun

end Check

namespace Stmt

theorem typeOf_settles (value : Expr) :
    Settles (fun t => t.defaulted.Settled) (typeOf value) :=
  settles_ask fun _ henv => value.typeIn_answers henv

theorem checkDeclare_settles (x : String) {t : Ty} (ht : t.Written) (value : Expr) (p : Position) :
    Settles (fun _ => True) (checkDeclare x t value p) := by
  refine (typeOf_settles value).bind fun received hreceived => ?_
  refine settles_get.bind fun c _ => settles_unless (settled_untyped rfl) ?_
  refine (settles_ask fun env henv => henv.resolve ht p).bind fun expected hexpected => ?_
  refine (settles_modify fun c hc => hc.setVariable x hexpected).bind fun _ _ => ?_
  exact settles_unless_end (settled_mismatch hexpected hreceived)

theorem checkAssign_settles (x : String) (value : Expr) (p : Position) :
    Settles (fun _ => True) (checkAssign x value p) := by
  refine (typeOf_settles value).bind fun received hreceived => ?_
  refine (settles_ask fun env henv => henv.variableType x p).bind fun expected hexpected => ?_
  exact settles_unless_end (settled_mismatch hexpected hreceived)

theorem checkRet_settles (value : Expr) (p : Position) :
    Settles (fun _ => True) (checkRet value p) := by
  refine (typeOf_settles value).bind fun received hreceived => ?_
  refine settles_get.bind fun c hc => settles_unless ?_ ?_
  · exact settled_mismatch hc.returnType hreceived
  · exact settles_modify fun c hc => ⟨hc.environment, hc.returnType⟩

theorem checkCondition_settles (condition : Expr) :
    Settles (fun _ => True) (checkCondition condition) := by
  refine (typeOf_settles condition).bind fun received hreceived => ?_
  exact settles_unless_end
    (settled_mismatch (Ty.Written.settled (t := .bool) trivial) hreceived)

mutual

theorem check_settles : (s : Stmt) → s.Shaped → Settles (fun _ => True) s.check
  | block body _, hs => by
      rw [Shaped] at hs
      rw [check]
      exact (failures_settles body hs).inScope.bind fun errors => settles_combine
  | ifThen condition consequence _, hs => by
      rw [Shaped] at hs
      rw [check]
      exact (checkCondition_settles condition).bind fun _ _ => check_settles consequence hs.2
  | print value _, _ => by
      rw [check]
      exact (typeOf_settles value).bind fun _ _ => settles_pure trivial
  | declare x t value p, hs => by
      rw [Shaped] at hs
      rw [check]
      exact checkDeclare_settles x hs value p
  | assign x value p, _ => by
      rw [check]
      exact checkAssign_settles x value p
  | ret value p, _ => by
      rw [check]
      exact checkRet_settles value p
  | evaluate value, _ => by
      rw [check]
      exact (typeOf_settles value).bind fun _ _ => settles_pure trivial

theorem failures_settles : (body : List Stmt) → ShapedAll body →
    Settles (fun errors => ∀ e ∈ errors, e.Settled) (failures body)
  | [], _ => by
      rw [failures]
      exact settles_pure nofun
  | s :: body, hs => by
      rw [ShapedAll] at hs
      rw [failures]
      refine (check_settles s hs.1).failure?.bind fun error herror => ?_
      refine (failures_settles body hs.2).bind fun errors herrors => settles_pure fun e he => ?_
      rcases List.mem_append.mp he with he | he
      · exact herror e (Option.mem_toList.mp he)
      · exact herrors e he

end

end Stmt

namespace Function

theorem Shaped.signature_settled {f : Function} (hf : f.Shaped) : f.signature.Settled := by
  refine Ty.Settled.function (fun t ht => ?_) hf.returns.settled
  obtain ⟨p, hp, rfl⟩ := List.mem_map.mp ht
  exact (hf.parameters p hp).settled

theorem Shaped.visibleSignature_settled {f : Function} (hf : f.Shaped) {env : Environment}
    (h : env.Settled) : (f.visibleSignature env).Settled := by
  rw [visibleSignature_eq f h.plain]
  exact hf.signature_settled

theorem declare_answers {env : Environment} (h : env.Settled) (x : String) {t : Ty}
    (ht : t.Settled) (p : Position) : Answers Environment.Settled (env.declare x t p) := by
  by_cases hx : env.current.hasVariable x = true
  · rw [declare_of_taken hx]
    exact settled_untyped rfl
  · rw [declare_of_new hx]
    exact h.setVariable x ht

theorem declareParameters_settles : (ps : List Parameter) → (∀ p ∈ ps, p.type.Written) →
    Settles (fun _ => True) (declareParameters ps)
  | [], _ => settles_pure trivial
  | p :: ps, h => by
      obtain ⟨hfirst, hothers⟩ := List.forall_mem_cons.mp h
      rw [declareParameters]
      refine (settles_ask fun env henv => henv.resolve hfirst p.position).bind fun t ht => ?_
      refine (settles_update fun env henv => declare_answers henv p.name ht p.position).bind
        fun _ _ => declareParameters_settles ps hothers

theorem checkBody_settles {f : Function} (hf : f.Shaped) : Settles (fun _ => True) f.checkBody := by
  refine (settles_ask fun env henv => henv.resolve hf.returns f.position).bind
    fun returns hreturns => ?_
  refine (settles_modify fun c hc => ?_).bind fun _ _ => ?_
  · exact ⟨hc.environment, hreturns⟩
  refine (declareParameters_settles f.parameters hf.parameters).bind fun _ _ => ?_
  refine (Stmt.check_settles f.body.toStmt hf.body).bind fun _ _ => settles_get.bind fun c _ => ?_
  exact settles_unless_end (settled_single (List.forall_mem_singleton.mpr hreturns))

theorem check_settles {f : Function} (hf : f.Shaped) : Settles (fun _ => True) f.check := by
  refine (settles_modify fun c hc => ?_).bind fun _ _ =>
    (settles_modify fun c hc => ?_).bind fun _ _ => (checkBody_settles hf).inScope
  · exact ⟨hc.environment, hf.returns.settled⟩
  · exact hc.setVariable f.name (hf.visibleSignature_settled hc.environment)

theorem declare_settles {f : Function} (hf : f.Shaped) : Settles (fun _ => True)
    (Check.update fun env => env.declare f.name (f.visibleSignature env) f.position) :=
  settles_update fun _ henv =>
    declare_answers henv f.name (hf.visibleSignature_settled henv) f.position

theorem declareAll_settles : (fs : List Function) → (∀ f ∈ fs, f.Shaped) →
    Settles (fun errors => ∀ error ∈ errors, ∀ e ∈ error, e.Settled) (declareAll fs)
  | [], _ => settles_pure nofun
  | f :: fs, h => by
      obtain ⟨hfirst, hothers⟩ := List.forall_mem_cons.mp h
      rw [declareAll]
      refine (declare_settles hfirst).failure?.bind fun error herror => ?_
      refine (declareAll_settles fs hothers).bind fun errors herrors => settles_pure ?_
      exact List.forall_mem_cons.mpr ⟨herror, herrors⟩

theorem failures_settles : (fs : List (Function × Option TypeError)) →
    (∀ f ∈ fs, f.1.Shaped ∧ ∀ e ∈ f.2, e.Settled) →
    Settles (fun errors => ∀ e ∈ errors, e.Settled) (failures fs)
  | [], _ => settles_pure nofun
  | (f, redefinition) :: fs, h => by
      obtain ⟨hfirst, hothers⟩ := List.forall_mem_cons.mp h
      rw [failures]
      refine (check_settles hfirst.1).failure?.bind fun error herror => ?_
      refine (failures_settles fs hothers).bind fun errors herrors => settles_pure fun e he => ?_
      rcases List.mem_append.mp he with he | he
      · rcases List.mem_append.mp he with he | he
        · exact hfirst.2 e (Option.mem_toList.mp he)
        · exact herror e (Option.mem_toList.mp he)
      · exact herrors e he

end Function

theorem Program.check_settles {p : Program} (h : p.Shaped) : Settles (fun _ => True) p.check := by
  refine (Function.declareAll_settles p.functions h).bind fun redefinitions hredefinitions => ?_
  refine (Function.failures_settles _ fun f hf => ?_).bind fun errors => settles_combine
  obtain ⟨f, error⟩ := f
  obtain ⟨hf, herror⟩ := List.of_mem_zip hf
  exact ⟨h f hf, hredefinitions error herror⟩

end Octet
