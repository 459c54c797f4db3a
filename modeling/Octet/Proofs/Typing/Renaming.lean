import Octet.Proofs.Lowering.Labels
import Octet.Proofs.Tree.Renaming
import Octet.Proofs.Typing.Inference

/-!
Checking a renamed tree. Two checks are run side by side, one on a tree and one
on the tree with other variables and positions. If they start from states that
know the same things under the old and the new names, they find the same: both
pass, or both fail, and then the errors too differ in names and positions only.
`Check.Parallel` is that relation, and like the other statements about checks it
passes through the ways in which checks are put together.

The new names must be different for different variables, and the names by which
functions are called must stay. If no name changes, what is left is that
checking sees no more of an environment than what its names mean.
-/

namespace Octet

variable {ρ : String → String} {φ : Position → Position}

/-! ### Renamed errors -/

def TypeFault.renamed (ρ : String → String) : TypeFault → TypeFault
  | undefinedVariable x => undefinedVariable (ρ x)
  | alreadyDefined x => alreadyDefined (ρ x)
  | fault => fault

namespace TypeError

mutual

def renamed (ρ : String → String) (φ : Position → Position) : TypeError → TypeError
  | single fault p => single (fault.renamed ρ) (φ p)
  | combined errors => combined (renamedAll ρ φ errors)

def renamedAll (ρ : String → String) (φ : Position → Position) : List TypeError → List TypeError
  | [] => []
  | e :: es => e.renamed ρ φ :: renamedAll ρ φ es

end

theorem renamedAll_append (es es' : List TypeError) :
    renamedAll ρ φ (es ++ es') = renamedAll ρ φ es ++ renamedAll ρ φ es' := by
  induction es with
  | nil => rfl
  | cons e es ih => rw [List.cons_append, renamedAll, renamedAll, ih, List.cons_append]

theorem renamedAll_toList (error : Option TypeError) :
    renamedAll ρ φ error.toList = (error.map (renamed ρ φ)).toList := by
  cases error <;> rfl

mutual

theorem renamed_id : (e : TypeError) → e.renamed id id = e
  | single fault p => by cases fault <;> rfl
  | combined errors => by rw [renamed, renamedAll_id errors]

theorem renamedAll_id : (es : List TypeError) → renamedAll id id es = es
  | [] => rfl
  | e :: es => by rw [renamedAll, renamed_id e, renamedAll_id es]

end

end TypeError

/-! ### Renamed environments -/

/-- The second scope knows under the new names what the first one knows under
the old ones. -/
structure Scope.Renamed (ρ : String → String) (s s' : Scope) : Prop where
  vars : ∀ x, s'.vars.find? (ρ x) = s.vars.find? x
  types : ∀ x, s'.types.find? x = s.types.find? x

theorem Scope.Renamed.empty : Scope.Renamed ρ Scope.empty Scope.empty :=
  ⟨fun _ => rfl, fun _ => rfl⟩

theorem Scope.Renamed.hasVariable {s s' : Scope} (h : Scope.Renamed ρ s s') (x : String) :
    s'.hasVariable (ρ x) = s.hasVariable x := by
  rw [Scope.hasVariable, h.vars, Scope.hasVariable]

theorem Scope.Renamed.setVariable (hρ : Function.Injective ρ) {s s' : Scope}
    (h : Scope.Renamed ρ s s') (x : String) (t : Ty) :
    Scope.Renamed ρ (s.setVariable x t) (s'.setVariable (ρ x) t) where
  vars y := by
    by_cases hy : y = x
    · subst hy
      simp [Scope.setVariable]
    · have hne : ρ y ≠ ρ x := fun heq => hy (hρ heq)
      simp only [Scope.setVariable, Bindings.find?_insert_of_ne hy, Bindings.find?_insert_of_ne hne,
        h.vars]
  types := h.types

namespace Environment

/-- Scope by scope, the second environment knows under the new names what the
first one knows under the old ones. -/
structure Renamed (ρ : String → String) (env env' : Environment) : Prop where
  current : Scope.Renamed ρ env.current env'.current
  enclosing : List.Forall₂ (Scope.Renamed ρ) env.enclosing env'.enclosing

namespace Renamed

variable {env env' : Environment}

theorem push (h : env.Renamed ρ env') :
    (env.push Scope.empty).Renamed ρ (env'.push Scope.empty) :=
  ⟨.empty, .cons h.current h.enclosing⟩

theorem pop (h : env.Renamed ρ env') : env.pop.Renamed ρ env'.pop := by
  have henclosing := h.enclosing
  unfold Environment.pop
  rcases hs : env.enclosing with _ | ⟨s, ss⟩ <;> rcases hs' : env'.enclosing with _ | ⟨s', ss'⟩ <;>
    rw [hs, hs'] at henclosing
  · exact h
  · cases henclosing
  · cases henclosing
  · exact ⟨(List.forall₂_cons.mp henclosing).1, (List.forall₂_cons.mp henclosing).2⟩

theorem setVariable (hρ : Function.Injective ρ) (h : env.Renamed ρ env') (x : String) (t : Ty) :
    (env.setVariable x t).Renamed ρ (env'.setVariable (ρ x) t) :=
  ⟨h.current.setVariable hρ x t, h.enclosing⟩

theorem scopes (h : env.Renamed ρ env') :
    List.Forall₂ (Scope.Renamed ρ) env.scopes env'.scopes :=
  .cons h.current h.enclosing

theorem findVariable? (h : env.Renamed ρ env') (x : String) :
    env'.findVariable? (ρ x) = env.findVariable? x := by
  have hscopes := h.scopes
  unfold Environment.findVariable?
  generalize env.scopes = ss, env'.scopes = ss' at hscopes
  induction hscopes with
  | nil => rfl
  | cons hs _ ih => rw [List.findSome?_cons, List.findSome?_cons, hs.vars, ih]

theorem findType? (h : env.Renamed ρ env') (x : String) :
    env'.findType? x = env.findType? x := by
  have hscopes := h.scopes
  unfold Environment.findType?
  generalize env.scopes = ss, env'.scopes = ss' at hscopes
  induction hscopes with
  | nil => rfl
  | cons hs _ ih => rw [List.findSome?_cons, List.findSome?_cons, hs.types, ih]

theorem variableType (h : env.Renamed ρ env') (x : String) (p : Position) :
    env'.variableType (ρ x) (φ p) = (env.variableType x p).mapError (TypeError.renamed ρ φ) := by
  unfold Environment.variableType
  rw [h.findVariable?]
  cases env.findVariable? x <;> rfl

theorem resolve (h : env.Renamed ρ env') (t : Ty) (p : Position) :
    env'.resolve t (φ p) = (env.resolve t p).mapError (TypeError.renamed ρ φ) := by
  cases t with
  | named name =>
      simp only [Environment.resolve, Environment.namedType, h.findType?]
      cases env.findType? name <;> rfl
  | _ => rfl

end Renamed

end Environment

/-! ### Expressions -/

namespace Expr

variable {env env' : Environment}

theorem variableType_renamed (h : env.Renamed ρ env') (x : String) (p : Position) :
    variableType env' (ρ x) (φ p) = (variableType env x p).mapError (TypeError.renamed ρ φ) := by
  unfold variableType
  rw [h.variableType]
  cases env.variableType x p with
  | error e => rfl
  | ok t => cases t <;> rfl

mutual

/-- A renamed expression has the same type, or is wrong in the same way. -/
theorem typeIn_renamed (h : env.Renamed ρ env') : (e : Expr) → (∀ f ∈ e.callees, ρ f = f) →
    (e.renamed ρ φ).typeIn env' = (e.typeIn env).mapError (TypeError.renamed ρ φ)
  | number _ _, _ | boolean _ _, _ => by
      simp only [renamed, typeIn]
      rfl
  | var x p, _ => by
      simp only [renamed, typeIn]
      exact variableType_renamed h x p
  | negate e p, hfix => by
      simp only [renamed, typeIn, typeIn_renamed h e hfix]
      cases e.typeIn env with
      | error err => rfl
      | ok t =>
          show (if t.isNumerical then _ else _) = Except.mapError _ (if t.isNumerical then _ else _)
          split <;> rfl
  | add l r p, hfix => by
      simp only [renamed, typeIn, position_renamed,
        typeIn_renamed h l fun f hf => hfix f (List.mem_append_left _ hf),
        typeIn_renamed h r fun f hf => hfix f (List.mem_append_right _ hf)]
      cases l.typeIn env with
      | error err => rfl
      | ok s =>
          cases r.typeIn env with
          | error err => rfl
          | ok t =>
              show (if !s.isNumerical then _ else if !t.isNumerical then _ else _) =
                Except.mapError _ (if !s.isNumerical then _ else if !t.isNumerical then _ else _)
              split
              · rfl
              · split
                · rfl
                · cases s.sum? t <;> rfl
  | compare c l r p, hfix => by
      simp only [renamed, typeIn,
        typeIn_renamed h l fun f hf => hfix f (List.mem_append_left _ hf),
        typeIn_renamed h r fun f hf => hfix f (List.mem_append_right _ hf)]
      cases l.typeIn env with
      | error err => rfl
      | ok s =>
          cases r.typeIn env with
          | error err => rfl
          | ok t =>
              show (if s.comparable t then _ else _) =
                Except.mapError _ (if s.comparable t then _ else _)
              split <;> rfl
  | call f args p, hfix => by
      have hf : ρ f = f := hfix f (List.mem_cons_self ..)
      have hcallee := h.variableType (φ := φ) f p
      rw [hf] at hcallee
      simp only [renamed, typeIn, hcallee, length_renamedAll]
      cases env.variableType f p with
      | error err => rfl
      | ok t =>
          cases t with
          | function parameters returns =>
              have hargs := checkArguments_renamed h args parameters
                fun g hg => hfix g (List.mem_cons_of_mem _ hg)
              show (if _ then _ else if _ then _ else _ >>= _) =
                Except.mapError _ (if _ then _ else if _ then _ else _ >>= _)
              split
              · rfl
              · split
                · rfl
                · rw [hargs]
                  cases checkArguments env args parameters <;> rfl
          | _ => rfl

theorem checkArguments_renamed (h : env.Renamed ρ env') : (args : List Expr) → (ts : List Ty) →
    (∀ f ∈ calleesAll args, ρ f = f) → checkArguments env' (renamedAll ρ φ args) ts =
      (checkArguments env args ts).mapError (TypeError.renamed ρ φ)
  | [], ts, _ => by
      simp only [renamedAll, checkArguments]
      rfl
  | a :: args, [], _ => by
      simp only [renamedAll, checkArguments]
      rfl
  | a :: args, t :: ts, hfix => by
      have hargs := checkArguments_renamed h args ts
        fun f hf => hfix f (List.mem_append_right _ hf)
      simp only [renamedAll, checkArguments, position_renamed,
        typeIn_renamed h a fun f hf => hfix f (List.mem_append_left _ hf)]
      cases a.typeIn env with
      | error err => rfl
      | ok s =>
          show (if t.accepts s then _ else _) = Except.mapError _ (if t.accepts s then _ else _)
          split
          · exact hargs
          · rfl

end

end Expr

/-! ### Checks side by side -/

/-- The second checker stands at the same place, with the new names. -/
structure Checker.Renamed (ρ : String → String) (c c' : Checker) : Prop where
  environment : c.environment.Renamed ρ c'.environment
  returnType : c'.returnType = c.returnType
  returned : c'.returned = c.returned

theorem Checker.Renamed.withEnvironment {c c' : Checker} (h : c.Renamed ρ c')
    {env env' : Environment} (henv : env.Renamed ρ env') :
    (c.withEnvironment env).Renamed ρ (c'.withEnvironment env') :=
  ⟨henv, h.returnType, h.returned⟩

namespace Check

/-- The second of two results is the first with the new names: either both have
values, and these are in the relation, or both have errors. -/
inductive Mirrors (ρ : String → String) (φ : Position → Position) {α : Type}
    (R : α → α → Prop) : EStateM.Result TypeError Checker α →
      EStateM.Result TypeError Checker α → Prop where
  | ok {a a' : α} {c c' : Checker} : R a a' → c.Renamed ρ c' → Mirrors ρ φ R (.ok a c) (.ok a' c')
  | error {e : TypeError} {c c' : Checker} : c.Renamed ρ c' →
      Mirrors ρ φ R (.error e c) (.error (e.renamed ρ φ) c')

/-- From states that know the same under the old and the new names the two checks
have the same result. -/
def Parallel (ρ : String → String) (φ : Position → Position) {α : Type} (R : α → α → Prop)
    (x x' : Check α) : Prop :=
  ∀ c c', c.Renamed ρ c' → Mirrors ρ φ R (x c) (x' c')

variable {α β : Type} {R : α → α → Prop} {S : β → β → Prop}

theorem parallel_pure {a a' : α} (h : R a a') :
    Parallel ρ φ R (pure a : Check α) (pure a' : Check α) :=
  fun _ _ hc => .ok h hc

theorem parallel_throw (e : TypeError) :
    Parallel ρ φ R (throw e : Check α) (throw (e.renamed ρ φ) : Check α) :=
  fun _ _ hc => .error hc

theorem parallel_get : Parallel ρ φ (Checker.Renamed ρ) get get :=
  fun _ _ hc => .ok hc hc

theorem parallel_modify {f f' : Checker → Checker}
    (h : ∀ c c', c.Renamed ρ c' → (f c).Renamed ρ (f' c')) :
    Parallel ρ φ (fun _ _ => True) (modify f : Check PUnit) (modify f' : Check PUnit) :=
  fun c c' hc => .ok trivial (h c c' hc)

theorem Parallel.bind {x x' : Check α} {f f' : α → Check β} (hx : Parallel ρ φ R x x')
    (hf : ∀ a a', R a a' → Parallel ρ φ S (f a) (f' a')) :
    Parallel ρ φ S (x >>= f) (x' >>= f') := by
  intro c c' hc
  show Mirrors ρ φ S (EStateM.bind x f c) (EStateM.bind x' f' c')
  unfold EStateM.bind
  have hfirst := hx c c' hc
  generalize x c = r, x' c' = r' at hfirst
  cases hfirst with
  | ok ha hc₁ => exact hf _ _ ha _ _ hc₁
  | error hc₁ => exact .error hc₁

theorem parallel_ite {b b' : Prop} [Decidable b] [Decidable b'] {x x' y y' : Check α}
    (hb : b' ↔ b) (hx : Parallel ρ φ R x x') (hy : Parallel ρ φ R y y') :
    Parallel ρ φ R (if b then x else y) (if b' then x' else y') := by
  by_cases h : b
  · rw [if_pos h, if_pos (hb.mpr h)]
    exact hx
  · rw [if_neg h, if_neg fun h' => h (hb.mp h')]
    exact hy

/-- Failing in front of the rest. -/
theorem parallel_unless {b b' : Prop} [Decidable b] [Decidable b'] {e e' : TypeError}
    {f f' : PUnit → Check α} {x x' : Check α} (hb : b' ↔ b) (he : e' = e.renamed ρ φ)
    (hx : Parallel ρ φ R x x') : Parallel ρ φ R (if b then throw e >>= f else x)
      (if b' then throw e' >>= f' else x') := by
  subst he
  exact parallel_ite hb ((parallel_throw (R := fun _ _ => False) e).bind fun _ _ h => h.elim) hx

/-- Failing at the end. -/
theorem parallel_unless_end {b b' : Prop} [Decidable b] [Decidable b'] {e e' : TypeError}
    (hb : b' ↔ b) (he : e' = e.renamed ρ φ) :
    Parallel ρ φ (fun _ _ => True) (if b then throw e else pure PUnit.unit : Check PUnit)
      (if b' then throw e' else pure PUnit.unit) := by
  subst he
  exact parallel_ite hb (parallel_throw e) (parallel_pure trivial)

theorem parallel_ask {f f' : Environment → Except TypeError α}
    (h : ∀ env env', env.Renamed ρ env' → f' env' = (f env).mapError (TypeError.renamed ρ φ)) :
    Parallel ρ φ Eq (ask f) (ask f') := by
  intro c c' hc
  unfold ask
  rw [h _ _ hc.environment]
  cases f c.environment with
  | ok a => exact .ok rfl hc
  | error e => exact .error hc

/-- Declaring a variable. -/
theorem parallel_declare (hρ : Function.Injective ρ) {x x' : String} (hx : x' = ρ x)
    {t t' : Environment → Ty} (ht : ∀ env env', env.Renamed ρ env' → t' env' = t env)
    (p : Position) : Parallel ρ φ (fun _ _ => True) (update fun env => env.declare x (t env) p)
      (update fun env => env.declare x' (t' env) (φ p)) := by
  subst hx
  intro c c' hc
  have henv := hc.environment
  simp only [update, Environment.declare, Scope.declare, henv.current.hasVariable, ht _ _ henv]
  cases c.environment.current.hasVariable x with
  | true => exact .error hc
  | false => exact .ok trivial (hc.withEnvironment (henv.setVariable hρ x _))

theorem Parallel.inScope {x x' : Check α} (h : Parallel ρ φ R x x') :
    Parallel ρ φ R (Check.inScope x) (Check.inScope x') := by
  intro c c' hc
  have hinside := h _ _ (hc.withEnvironment hc.environment.push)
  unfold Check.inScope
  generalize x _ = r, x' _ = r' at hinside
  cases hinside with
  | ok ha hc₁ => exact .ok ha (hc₁.withEnvironment hc₁.environment.pop)
  | error hc₁ => exact .error (hc₁.withEnvironment hc₁.environment.pop)

/-- The error of a check as a value. -/
theorem Parallel.failure? {x x' : Check Unit} (h : Parallel ρ φ (fun _ _ => True) x x') :
    Parallel ρ φ (fun error error' => error' = error.map (TypeError.renamed ρ φ))
      (Check.failure? x) (Check.failure? x') := by
  intro c c' hc
  have hx := h c c' hc
  unfold Check.failure?
  generalize x c = r, x' c' = r' at hx
  cases hx with
  | ok _ hc₁ => exact .ok rfl hc₁
  | error hc₁ => exact .ok rfl hc₁

theorem parallel_combine (errors : List TypeError) :
    Parallel ρ φ (fun _ _ => True) (combine errors)
      (combine (TypeError.renamedAll ρ φ errors)) := by
  cases errors with
  | nil => exact parallel_pure trivial
  | cons e es => exact parallel_throw (.combined (e :: es))

end Check

open Check

/-! ### Statements -/

namespace Stmt

theorem typeOf_parallel (e : Expr) (hfix : ∀ f ∈ e.callees, ρ f = f) :
    Parallel ρ φ Eq (typeOf e) (typeOf (e.renamed ρ φ)) :=
  parallel_ask fun _ _ henv => Expr.typeIn_renamed henv e hfix

theorem checkDeclare_parallel (hρ : Function.Injective ρ) (x : String) (t : Ty) (value : Expr)
    (p : Position) (hfix : ∀ f ∈ value.callees, ρ f = f) : Parallel ρ φ (fun _ _ => True)
      (checkDeclare x t value p) (checkDeclare (ρ x) t (value.renamed ρ φ) (φ p)) := by
  refine (typeOf_parallel value hfix).bind fun received _ h => ?_
  subst h
  refine parallel_get.bind fun c c' hc => ?_
  refine parallel_unless (by rw [hc.environment.current.hasVariable]) rfl ?_
  refine (parallel_ask fun _ _ henv => henv.resolve t p).bind fun expected _ h => ?_
  subst h
  refine (parallel_modify fun d d' hd => ?_).bind fun _ _ _ => parallel_unless_end .rfl rfl
  exact hd.withEnvironment (hd.environment.setVariable hρ x expected)

theorem checkAssign_parallel (x : String) (value : Expr) (p : Position)
    (hfix : ∀ f ∈ value.callees, ρ f = f) : Parallel ρ φ (fun _ _ => True)
      (checkAssign x value p) (checkAssign (ρ x) (value.renamed ρ φ) (φ p)) := by
  refine (typeOf_parallel value hfix).bind fun received _ h => ?_
  subst h
  refine (parallel_ask fun _ _ henv => henv.variableType x p).bind fun expected _ h => ?_
  subst h
  exact parallel_unless_end .rfl rfl

theorem checkRet_parallel (value : Expr) (p : Position) (hfix : ∀ f ∈ value.callees, ρ f = f) :
    Parallel ρ φ (fun _ _ => True) (checkRet value p) (checkRet (value.renamed ρ φ) (φ p)) := by
  refine (typeOf_parallel value hfix).bind fun received _ h => ?_
  subst h
  refine parallel_get.bind fun c c' hc => ?_
  refine parallel_unless (by rw [hc.returnType]) (by rw [hc.returnType]; rfl) ?_
  exact parallel_modify fun d d' hd => ⟨hd.environment, hd.returnType, rfl⟩

theorem checkCondition_parallel (condition : Expr) (hfix : ∀ f ∈ condition.callees, ρ f = f) :
    Parallel ρ φ (fun _ _ => True) (checkCondition condition)
      (checkCondition (condition.renamed ρ φ)) := by
  refine (typeOf_parallel condition hfix).bind fun received _ h => ?_
  subst h
  exact parallel_unless_end .rfl (by rw [Expr.position_renamed]; rfl)

mutual

/-- A renamed statement passes if the statement does, and else fails with the same
error. -/
theorem check_parallel (hρ : Function.Injective ρ) : (s : Stmt) → (∀ f ∈ s.callees, ρ f = f) →
    Parallel ρ φ (fun _ _ => True) s.check (s.renamed ρ φ).check
  | block body p, hfix => by
      simp only [renamed, check]
      refine (failures_parallel hρ body hfix).inScope.bind fun errors _ h => ?_
      subst h
      exact parallel_combine errors
  | ifThen condition consequence p, hfix => by
      simp only [renamed, check]
      have hcondition := checkCondition_parallel (φ := φ) condition
        fun f hf => hfix f (List.mem_append_left _ hf)
      exact hcondition.bind fun _ _ _ =>
        check_parallel hρ consequence fun f hf => hfix f (List.mem_append_right _ hf)
  | print value p, hfix => by
      simp only [renamed, check]
      exact (typeOf_parallel value hfix).bind fun _ _ _ => parallel_pure trivial
  | declare x t value p, hfix => by
      simp only [renamed, check]
      exact checkDeclare_parallel hρ x t value p hfix
  | assign x value p, hfix => by
      simp only [renamed, check]
      exact checkAssign_parallel x value p hfix
  | ret value p, hfix => by
      simp only [renamed, check]
      exact checkRet_parallel value p hfix
  | evaluate value, hfix => by
      simp only [renamed, check]
      exact (typeOf_parallel value hfix).bind fun _ _ _ => parallel_pure trivial

theorem failures_parallel (hρ : Function.Injective ρ) : (body : List Stmt) →
    (∀ f ∈ calleesAll body, ρ f = f) →
    Parallel ρ φ (fun errors errors' => errors' = TypeError.renamedAll ρ φ errors)
      (failures body) (failures (renamedAll ρ φ body))
  | [], _ => by
      simp only [renamedAll, failures]
      exact parallel_pure rfl
  | s :: body, hfix => by
      simp only [renamedAll, failures]
      have hfirst := check_parallel hρ s fun f hf => hfix f (List.mem_append_left _ hf)
      refine hfirst.failure?.bind fun error _ h => ?_
      subst h
      have hrest := failures_parallel hρ body
        fun f hf => hfix f (List.mem_append_right _ hf)
      refine hrest.bind fun errors _ h => ?_
      subst h
      apply parallel_pure
      rw [TypeError.renamedAll_append, TypeError.renamedAll_toList]

end

end Stmt

/-! ### Functions -/

namespace Function

/-- A renaming that leaves the name of the function, and those of all functions
that it calls. -/
structure Fixed (ρ : String → String) (f : Function) : Prop where
  name : ρ f.name = f.name
  callees : ∀ x ∈ Stmt.calleesAll f.body.body, ρ x = x

theorem fixed_id (f : Function) : f.Fixed id := ⟨rfl, fun _ _ => rfl⟩

theorem mapM_resolve_renamed {env env' : Environment} (h : env.Renamed ρ env')
    (ps : List Parameter) :
    (ps.map (Parameter.renamed ρ φ)).mapM (fun p => env'.resolve p.type p.position) =
      (ps.mapM fun p => env.resolve p.type p.position).mapError (TypeError.renamed ρ φ) := by
  induction ps with
  | nil => rfl
  | cons p ps ih =>
      have hp : env'.resolve (p.renamed ρ φ).type (p.renamed ρ φ).position =
        (env.resolve p.type p.position).mapError (TypeError.renamed ρ φ) := h.resolve _ _
      rw [List.map_cons, List.mapM_cons, List.mapM_cons, hp, ih]
      cases env.resolve p.type p.position with
      | error e => rfl
      | ok t => cases ps.mapM fun p => env.resolve p.type p.position <;> rfl

/-- Calls see the same of a renamed function. -/
theorem visibleSignature_renamed {env env' : Environment} (h : env.Renamed ρ env')
    (f : Function) : (f.renamed ρ φ).visibleSignature env' = f.visibleSignature env := by
  have hsignature : (f.renamed ρ φ).signature = f.signature := by
    simp [signature, renamed, Parameter.renamed, Function.comp_def]
  have hresolved : (f.renamed ρ φ).resolvedSignature env' =
      (f.resolvedSignature env).mapError (TypeError.renamed ρ φ) := by
    simp only [resolvedSignature, renamed, h.resolve, mapM_resolve_renamed h]
    cases env.resolve f.returns f.position with
    | error e => rfl
    | ok t => cases f.parameters.mapM fun p => env.resolve p.type p.position <;> rfl
  rw [visibleSignature, visibleSignature, hresolved, hsignature]
  cases f.resolvedSignature env <;> rfl

theorem declareParameters_parallel (hρ : Function.Injective ρ) : (ps : List Parameter) →
    Parallel ρ φ (fun _ _ => True) (declareParameters ps)
      (declareParameters (ps.map (Parameter.renamed ρ φ)))
  | [] => parallel_pure trivial
  | p :: ps => by
      rw [List.map_cons, declareParameters, declareParameters]
      refine (parallel_ask fun _ _ henv => henv.resolve p.type p.position).bind fun t _ h => ?_
      subst h
      refine (parallel_declare hρ rfl (fun _ _ _ => rfl) p.position).bind fun _ _ _ => ?_
      exact declareParameters_parallel hρ ps

theorem checkBody_parallel (hρ : Function.Injective ρ) {f : Function} (hf : f.Fixed ρ) :
    Parallel ρ φ (fun _ _ => True) f.checkBody (f.renamed ρ φ).checkBody := by
  refine (parallel_ask fun _ _ henv => henv.resolve f.returns f.position).bind
    fun returns _ h => ?_
  subst h
  refine (parallel_modify fun c c' hc => ?_).bind fun _ _ _ => ?_
  · exact ⟨hc.environment, rfl, hc.returned⟩
  refine (declareParameters_parallel hρ f.parameters).bind fun _ _ _ => ?_
  refine Parallel.bind (R := fun _ _ => True) ?_ fun _ _ _ => ?_
  · have hbody := Stmt.check_parallel (φ := φ) hρ f.body.toStmt hf.callees
    simp only [Block.toStmt, Stmt.renamed] at hbody
    exact hbody
  · refine parallel_get.bind fun c c' hc => ?_
    exact parallel_unless_end (by rw [hc.returned]) rfl

/-- The check of a function forgets what was returned before it. -/
theorem check_eq (f : Function) (c : Checker) : f.check c = Check.inScope f.checkBody
    ⟨c.environment.setVariable f.name (f.visibleSignature c.environment), f.returns, false⟩ :=
  rfl

/-- Of what has been checked before, a function sees the environment only. -/
theorem check_mirrors (hρ : Function.Injective ρ) {f : Function} (hf : f.Fixed ρ)
    {c c' : Checker} (h : c.environment.Renamed ρ c'.environment) :
    Mirrors ρ φ (fun _ _ => True) (f.check c) ((f.renamed ρ φ).check c') := by
  rw [check_eq, check_eq, visibleSignature_renamed h]
  refine (checkBody_parallel hρ hf).inScope _ _ ⟨?_, rfl, rfl⟩
  have henv := h.setVariable hρ f.name (f.visibleSignature c.environment)
  rwa [hf.name] at henv

theorem declareAll_parallel (hρ : Function.Injective ρ) : (fs : List Function) →
    (∀ f ∈ fs, f.Fixed ρ) → Parallel ρ φ
      (fun errors errors' => errors' = errors.map (Option.map (TypeError.renamed ρ φ)))
      (declareAll fs) (declareAll (fs.map (Function.renamed ρ φ)))
  | [], _ => parallel_pure rfl
  | f :: fs, hfs => by
      rw [List.map_cons, declareAll, declareAll]
      have hfirst := (parallel_declare (φ := φ) hρ (hfs f (List.mem_cons_self ..)).name.symm
        (fun _ _ henv => visibleSignature_renamed (φ := φ) henv f) f.position).failure?
      refine hfirst.bind fun error _ h => ?_
      subst h
      refine (declareAll_parallel hρ fs fun g hg => hfs g (List.mem_cons_of_mem _ hg)).bind
        fun errors _ h => ?_
      subst h
      exact parallel_pure rfl

theorem failures_parallel (hρ : Function.Injective ρ) : (fs : List Function) →
    (∀ f ∈ fs, f.Fixed ρ) → (redefinitions : List (Option TypeError)) →
    Parallel ρ φ (fun errors errors' => errors' = TypeError.renamedAll ρ φ errors)
      (failures (fs.zip redefinitions)) (failures ((fs.map (Function.renamed ρ φ)).zip
        (redefinitions.map (Option.map (TypeError.renamed ρ φ)))))
  | [], _, _ => parallel_pure rfl
  | _ :: _, _, [] => parallel_pure rfl
  | f :: fs, hfs, redefinition :: redefinitions => by
      rw [List.map_cons, List.map_cons, List.zip_cons_cons, List.zip_cons_cons, failures, failures]
      have hfirst : Parallel ρ φ (fun _ _ => True) f.check (f.renamed ρ φ).check :=
        fun c c' hc => check_mirrors hρ (hfs f (List.mem_cons_self ..)) hc.environment
      refine hfirst.failure?.bind fun error _ h => ?_
      subst h
      refine (failures_parallel hρ fs (fun g hg => hfs g (List.mem_cons_of_mem _ hg))
        redefinitions).bind fun errors _ h => ?_
      subst h
      apply parallel_pure
      simp only [TypeError.renamedAll_append, TypeError.renamedAll_toList]

end Function

/-! ### Programs -/

/-- A renamed program passes if the program does, and else fails with the same
error. -/
theorem Program.typeCheck_renamed (hρ : Function.Injective ρ) {p : Program}
    (hfixed : ∀ f ∈ p.functions, f.Fixed ρ) :
    (p.renamed ρ φ).typeCheck = p.typeCheck.mapError (TypeError.renamed ρ φ) := by
  have hcheck : Parallel ρ φ (fun _ _ => True) p.check (p.renamed ρ φ).check := by
    refine (Function.declareAll_parallel hρ p.functions hfixed).bind fun redefinitions _ h => ?_
    subst h
    refine (Function.failures_parallel hρ p.functions hfixed redefinitions).bind
      fun errors _ h => ?_
    subst h
    exact parallel_combine errors
  have hinitial : Checker.initial.Renamed ρ Checker.initial := ⟨⟨.empty, .nil⟩, rfl, rfl⟩
  have hrun := hcheck _ _ hinitial
  unfold typeCheck
  generalize p.check Checker.initial = r, (p.renamed ρ φ).check Checker.initial = r' at hrun
  cases hrun with
  | ok _ _ => rfl
  | error _ => rfl

end Octet
