import Octet.Proofs.Lowering.Emission
import Octet.Proofs.Typing.Modularity

/-!
What checking leaves in the scopes. A check that fails halfway has done part of
its work, and checking goes on behind it; so what a check leaves behind is said
here of failures and successes alike. A block gives back the environment that it
got, and a statement adds to the innermost scope no name but the one that it
declares there.

A statement that declares nothing may have remembered that a value is returned,
and nothing that stands behind it in a block asks for that. Without the statement
the block has the same errors, except for the one of the statement.
-/

namespace Octet

open Check

/-! ### Checks that change nothing, and checks that keep the environment -/

namespace Check

variable {α β : Type}

theorem steady_eq : Steady Eq := ⟨fun _ => rfl, fun _ _ _ => Eq.trans⟩

/-- If the first check changes nothing, both together leave behind nothing new or
what the second one leaves behind. -/
theorem Moves.after_bind {x : Check α} (hx : Moves Eq x) (f : α → Check β) (c : Checker) :
    after ((x >>= f) c) = c ∨ ∃ a, after ((x >>= f) c) = after (f a c) := by
  have hc := hx c
  show after (EStateM.bind x f c) = c ∨ ∃ a, after (EStateM.bind x f c) = after (f a c)
  unfold EStateM.bind
  cases h : x c with
  | ok a c₁ =>
      rw [h] at hc
      exact .inr ⟨a, by rw [hc]; rfl⟩
  | error e c₁ =>
      rw [h] at hc
      exact .inl hc.symm

theorem get_bind (f : Checker → Check β) (c : Checker) : (get >>= f) c = f c c := rfl

/-- A check whose failure is caught goes on with its error. -/
theorem failure?_bind (x : Check Unit) (f : Option TypeError → Check β) (c : Checker) :
    (failure? x >>= f) c = f (error? (x c)) (after (x c)) := by
  show EStateM.bind (failure? x) f c = _
  unfold EStateM.bind
  rw [failure?_eq]

theorem bind_of_ok {x : Check α} {c c₁ : Checker} {a : α} (h : x c = .ok a c₁)
    (f : α → Check β) : (x >>= f) c = f a c₁ := by
  show EStateM.bind x f c = _
  unfold EStateM.bind
  rw [h]

/-- If the second check changes nothing, both together leave behind what the first
one does. -/
theorem after_bind_same (x : Check α) {f : α → Check β} (hf : ∀ a, Moves Eq (f a))
    (c : Checker) : after ((x >>= f) c) = after (x c) := by
  show after (EStateM.bind x f c) = _
  unfold EStateM.bind
  cases x c with
  | ok a c₁ => exact (hf a c₁).symm
  | error e c₁ => rfl

end Check

namespace Checker

def SameEnvironment (c c' : Checker) : Prop := c'.environment = c.environment

theorem sameEnvironment_steady : Steady SameEnvironment :=
  ⟨fun _ => rfl, fun _ _ _ h h' => h'.trans h⟩

def SameReturnType (c c' : Checker) : Prop := c'.returnType = c.returnType

theorem sameReturnType_lasting : Lasting SameReturnType where
  refl _ := rfl
  trans _ _ _ h h' := h'.trans h
  declare _ _ _ := rfl
  ret _ := rfl
  inScope {_ x} h c := by
    have hinside := h (c.withEnvironment (c.environment.push Scope.empty))
    unfold Check.inScope
    cases hc : x (c.withEnvironment (c.environment.push Scope.empty)) with
    | ok a c₁ =>
        rw [hc] at hinside
        exact hinside
    | error e c₁ =>
        rw [hc] at hinside
        exact hinside

end Checker

open Checker (SameEnvironment sameEnvironment_steady)

namespace Stmt

/-- A block gives back the environment. -/
theorem block_sameEnvironment (body : List Stmt) (p : Position) :
    Moves SameEnvironment (block body p).check := by
  rw [check]
  refine sameEnvironment_steady.bind (fun c => ?_) sameEnvironment_steady.combine
  exact (failures_moves Checker.sameOuter_lasting body).environment_inScope c

/-! ### New names in the innermost scope -/

/-- A declaration that gets as far as that binds a name which the innermost scope
did not have. -/
theorem environment_checkDeclare (x : String) (t : Ty) (value : Expr) (p : Position)
    (c : Checker) : (after (checkDeclare x t value p c)).environment = c.environment ∨
      c.environment.current.hasVariable x = false ∧ ∃ t',
        (after (checkDeclare x t value p c)).environment = c.environment.setVariable x t' := by
  unfold checkDeclare typeOf
  rcases (steady_eq.ask fun env => value.typeIn env).after_bind _ c with h | ⟨received, h⟩
  · exact .inl (congrArg Checker.environment h)
  simp only [h, get_bind]
  by_cases hx : c.environment.current.hasVariable x = true
  · rw [if_pos hx]
    exact .inl rfl
  rw [if_neg hx]
  rcases (steady_eq.ask fun env => env.resolve t p).after_bind _ c with h | ⟨t', h⟩
  · exact .inl (congrArg Checker.environment h)
  refine .inr ⟨eq_false_of_ne_true hx, t', ?_⟩
  rw [h]
  show (after ((if _ then throw _ else pure _ : Check PUnit) _)).environment = _
  split <;> rfl

/-- A statement leaves the environment as it is, or binds the name that it
declares in the innermost scope, if the scope did not have it. -/
theorem environment_check : (s : Stmt) → (c : Checker) →
    (after (s.check c)).environment = c.environment ∨
      ∃ x ∈ s.declared, c.environment.current.hasVariable x = false ∧ ∃ t,
        (after (s.check c)).environment = c.environment.setVariable x t
  | block body p, c => .inl (block_sameEnvironment body p c)
  | ifThen condition consequence p, c => by
      rw [check]
      rcases (checkCondition_moves steady_eq condition).after_bind
        (fun _ => consequence.check) c with h | ⟨_, h⟩
      · exact .inl (congrArg Checker.environment h)
      · rw [h]
        exact environment_check consequence c
  | print value p, c => by
      have h := sameEnvironment_steady
      rw [check]
      exact .inl (h.bind (h.ask _) (fun _ => h.pure _) c)
  | declare x t value p, c => by
      rw [check]
      exact (environment_checkDeclare x t value p c).imp_right fun h => ⟨x, by simp [declared], h⟩
  | assign x value p, c => by
      rw [check]
      exact .inl (checkAssign_moves sameEnvironment_steady x value p c)
  | ret value p, c => by
      rw [check]
      exact .inl (checkRet_moves sameEnvironment_steady (fun _ => rfl) value p c)
  | evaluate value, c => by
      have h := sameEnvironment_steady
      rw [check]
      exact .inl (h.bind (h.ask _) (fun _ => h.pure _) c)

end Stmt

/-- The second environment is the first, with some of the names added to its
innermost scope. -/
structure Environment.Extends (names : List String) (env env' : Environment) : Prop where
  enclosing : env'.enclosing = env.enclosing
  types : env'.current.types = env.current.types
  kept : ∀ x t, env.current.vars.find? x = some t → env'.current.vars.find? x = some t
  others : ∀ x ∉ names, env'.current.vars.find? x = env.current.vars.find? x

namespace Environment.Extends

variable {names : List String} {env env₁ env₂ : Environment}

theorem refl (names : List String) (env : Environment) : env.Extends names env :=
  ⟨rfl, rfl, fun _ _ h => h, fun _ _ => rfl⟩

theorem trans (h : env.Extends names env₁) (h' : env₁.Extends names env₂) :
    env.Extends names env₂ where
  enclosing := h'.enclosing.trans h.enclosing
  types := h'.types.trans h.types
  kept x t hx := h'.kept x t (h.kept x t hx)
  others x hx := (h'.others x hx).trans (h.others x hx)

theorem setVariable {x : String} (hx : x ∈ names) (hnew : env.current.hasVariable x = false)
    (t : Ty) : env.Extends names (env.setVariable x t) where
  enclosing := rfl
  types := rfl
  kept y u hy := by
    have hne : y ≠ x := by
      rintro rfl
      simp [Scope.hasVariable, hy] at hnew
    exact (Bindings.find?_insert_of_ne hne t env.current.vars).trans hy
  others y hy := by
    have hne : y ≠ x := by
      rintro rfl
      exact hy hx
    exact Bindings.find?_insert_of_ne hne t env.current.vars

end Environment.Extends

theorem Stmt.check_extends (s : Stmt) (c : Checker) :
    c.environment.Extends s.declared (after (s.check c)).environment := by
  rcases s.environment_check c with h | ⟨x, hx, hnew, t, h⟩
  · rw [h]
    exact .refl _ _
  · rw [h]
    exact .setVariable hx hnew t

/-! ### The names of functions -/

/-- The second environment is the first, in which the functions are known: of
those with the same name, the last one. -/
structure Environment.Binds (fs : List Function) (env env' : Environment) : Prop where
  enclosing : env'.enclosing = env.enclosing
  types : env'.current.types = env.current.types
  last : ∀ before f behind, fs = before ++ f :: behind → (∀ g ∈ behind, g.name ≠ f.name) →
    env'.current.vars.find? f.name = some (f.visibleSignature env)
  others : ∀ x, (∀ f ∈ fs, f.name ≠ x) → env'.current.vars.find? x = env.current.vars.find? x

theorem Environment.resolve_congr {env env' : Environment}
    (henclosing : env'.enclosing = env.enclosing) (htypes : env'.current.types = env.current.types)
    (t : Ty) (p : Position) : env'.resolve t p = env.resolve t p := by
  have hfind (x : String) : env'.findType? x = env.findType? x := by
    simp only [findType?, scopes, henclosing, List.findSome?_cons, htypes]
  unfold resolve namedType
  simp only [hfind]

namespace Function

/-- What calls see of a function depends on the names of types only. -/
theorem visibleSignature_congr {env env' : Environment}
    (henclosing : env'.enclosing = env.enclosing) (htypes : env'.current.types = env.current.types)
    (f : Function) : f.visibleSignature env' = f.visibleSignature env := by
  unfold visibleSignature resolvedSignature
  simp only [Environment.resolve_congr henclosing htypes]

theorem binds_nil (env : Environment) : env.Binds [] env :=
  ⟨rfl, rfl, by simp, fun _ _ => rfl⟩

theorem binds_cons {f : Function} {fs : List Function} {env env' : Environment}
    (h : (env.setVariable f.name (f.visibleSignature env)).Binds fs env') :
    env.Binds (f :: fs) env' where
  enclosing := h.enclosing
  types := h.types
  last before g behind hfs hlast := by
    cases before with
    | nil =>
        obtain ⟨rfl, rfl⟩ := List.cons.inj hfs
        rw [h.others _ hlast]
        exact Bindings.find?_insert_self _ _ _
    | cons b before =>
        rw [h.last before g behind (List.cons.inj hfs).2 hlast]
        exact congrArg some (visibleSignature_congr rfl rfl g)
  others x hx := by
    rw [h.others x fun g hg => hx g (List.mem_cons_of_mem _ hg)]
    exact Bindings.find?_insert_of_ne (hx f (List.mem_cons_self ..)).symm _ _

/-- Functions that are declared are new names. -/
theorem declareAll_extends {names : List String} : (fs : List Function) →
    (∀ f ∈ fs, f.name ∈ names) → (c : Checker) →
    c.environment.Extends names (after (declareAll fs c)).environment
  | [], _, c => .refl names c.environment
  | f :: fs, hnames, c => by
      rw [declareAll, failure?_bind, after_bind_same _ fun _ => steady_eq.pure _]
      refine .trans ?_ (declareAll_extends fs (fun g hg => hnames g (List.mem_cons_of_mem _ hg)) _)
      cases hdeclare :
          c.environment.declare f.name (f.visibleSignature c.environment) f.position with
      | error e =>
          simp only [Check.update, hdeclare]
          exact .refl names c.environment
      | ok env =>
          obtain ⟨hnew, rfl⟩ := Environment.declare_ok.mp hdeclare
          simp only [Check.update, hdeclare]
          exact .setVariable (hnames f (List.mem_cons_self ..))
            (Environment.hasVariable_eq_false.mpr hnew) _

/-- The functions that are checked are known from then on, be they right or
wrong. -/
theorem failures_binds : (fs : List Function) → (redefinitions : List (Option TypeError)) →
    redefinitions.length = fs.length → (c : Checker) →
    c.environment.Binds fs (after (failures (fs.zip redefinitions) c)).environment
  | [], _, _, c => binds_nil c.environment
  | f :: fs, redefinition :: redefinitions, hlength, c => by
      apply binds_cons
      rw [← environment_check f c, List.zip_cons_cons, failures, failure?_bind,
        after_bind_same _ fun _ => steady_eq.pure _]
      exact failures_binds fs redefinitions (by simpa using hlength) (after (f.check c))

end Function

theorem Program.check_binds (p : Program) (c : Checker) :
    c.environment.Binds p.functions (after (p.check c)).environment := by
  obtain ⟨redefinitions, c₁, hdeclare, hlength⟩ := Function.declareAll_total p.functions c
  have hextends := Function.declareAll_extends p.functions
    (fun f hf => List.mem_map_of_mem (f := Function.name) hf) c
  have hbinds := Function.failures_binds p.functions redefinitions hlength c₁
  rw [hdeclare] at hextends
  rw [check, bind_of_ok hdeclare, after_bind_same _ steady_eq.combine]
  exact {
    enclosing := hbinds.enclosing.trans hextends.enclosing
    types := hbinds.types.trans hextends.types
    last := fun before f behind hfs hlast => by
      rw [hbinds.last before f behind hfs hlast]
      exact congrArg some (Function.visibleSignature_congr hextends.enclosing hextends.types f)
    others := fun x hx => by
      rw [hbinds.others x hx]
      refine hextends.others x fun hmem => ?_
      obtain ⟨f, hf, hname⟩ := List.mem_map.mp hmem
      exact hx f hf hname }

/-! ### Whether a value has been returned -/

/-- The checker, where a value has been returned. -/
def Checker.returning (c : Checker) : Checker := { c with returned := true }

namespace Check

variable {α β : Type}

def returning : EStateM.Result TypeError Checker α → EStateM.Result TypeError Checker α
  | .ok a c => .ok a c.returning
  | .error e c => .error e c.returning

/-- The check does not ask whether a value has been returned. -/
def Heedless (x : Check α) : Prop := ∀ c, x c.returning = returning (x c)

theorem heedless_pure (a : α) : Heedless (pure a : Check α) := fun _ => rfl

theorem heedless_throw (e : TypeError) : Heedless (throw e : Check α) := fun _ => rfl

theorem heedless_ask (f : Environment → Except TypeError α) : Heedless (ask f) := by
  intro c
  have henv : c.returning.environment = c.environment := rfl
  unfold ask
  rw [henv]
  cases f c.environment <;> rfl

theorem heedless_modify {f : Checker → Checker} (h : ∀ c, f c.returning = (f c).returning) :
    Heedless (modify f : Check PUnit) := fun c => congrArg (EStateM.Result.ok PUnit.unit) (h c)

theorem Heedless.bind {x : Check α} {f : α → Check β} (hx : Heedless x) (hf : ∀ a, Heedless (f a)) :
    Heedless (x >>= f) := by
  intro c
  show EStateM.bind x f c.returning = returning (EStateM.bind x f c)
  unfold EStateM.bind
  rw [hx c]
  cases x c with
  | ok a c₁ => exact hf a c₁
  | error e c₁ => rfl

theorem heedless_get_bind {f : Checker → Check α} (hsame : ∀ c, f c.returning = f c)
    (hf : ∀ c, Heedless (f c)) : Heedless (get >>= f) := by
  intro c
  rw [get_bind, get_bind, hsame c]
  exact hf c c

theorem heedless_ite {b : Prop} [Decidable b] {x y : Check α} (hx : Heedless x) (hy : Heedless y) :
    Heedless (if b then x else y) := by
  split
  · exact hx
  · exact hy

theorem Heedless.inScope {x : Check α} (hx : Heedless x) : Heedless (Check.inScope x) := by
  intro c
  have hinside : x (c.returning.withEnvironment (c.returning.environment.push Scope.empty)) =
      returning (x (c.withEnvironment (c.environment.push Scope.empty))) :=
    hx (c.withEnvironment (c.environment.push Scope.empty))
  unfold Check.inScope
  rw [hinside]
  cases x (c.withEnvironment (c.environment.push Scope.empty)) <;> rfl

theorem Heedless.failure? {x : Check Unit} (hx : Heedless x) : Heedless (Check.failure? x) := by
  intro c
  rw [failure?_eq, failure?_eq, hx c]
  cases x c <;> rfl

/-- From states that differ at most in whether a value has been returned, the check
has the same value. -/
theorem Heedless.ok_of_same {x : Check α} (hx : Heedless x) {c c' c₁ : Checker} {a : α}
    (henv : c'.environment = c.environment) (htype : c'.returnType = c.returnType)
    (h : x c = .ok a c₁) : ∃ c₂, x c' = .ok a c₂ := by
  obtain ⟨env, t, returned⟩ := c
  obtain ⟨env', t', returned'⟩ := c'
  obtain rfl : env' = env := henv
  obtain rfl : t' = t := htype
  have hboth : x ⟨env', t', true⟩ = returning (x ⟨env', t', false⟩) := hx ⟨env', t', false⟩
  cases returned <;> cases returned'
  · exact ⟨c₁, h⟩
  · rw [hboth, h]
    exact ⟨_, rfl⟩
  · rw [hboth] at h
    cases hx : x ⟨env', t', false⟩ with
    | ok b c₂ =>
        rw [hx] at h
        cases h
        exact ⟨c₂, rfl⟩
    | error e c₂ =>
        rw [hx] at h
        cases h
  · exact ⟨c₁, h⟩

theorem heedless_combine (errors : List TypeError) : Heedless (combine errors) := by
  cases errors with
  | nil => exact heedless_pure ()
  | cons e es => exact heedless_throw _

end Check

namespace Stmt

theorem checkDeclare_heedless (x : String) (t : Ty) (value : Expr) (p : Position) :
    Heedless (checkDeclare x t value p) := by
  refine (heedless_ask _).bind fun received => heedless_get_bind (fun _ => rfl) fun c => ?_
  refine heedless_ite ((heedless_throw _).bind fun _ => ?_) ?_ <;>
  · refine (heedless_ask _).bind fun expected => Heedless.bind ?_ fun _ =>
      heedless_ite (heedless_throw _) (heedless_pure _)
    exact heedless_modify fun _ => rfl

theorem checkAssign_heedless (x : String) (value : Expr) (p : Position) :
    Heedless (checkAssign x value p) :=
  (heedless_ask _).bind fun _ => (heedless_ask _).bind fun _ =>
    heedless_ite (heedless_throw _) (heedless_pure _)

theorem checkRet_heedless (value : Expr) (p : Position) : Heedless (checkRet value p) := by
  refine (heedless_ask _).bind fun received => heedless_get_bind (fun _ => rfl) fun c => ?_
  exact heedless_ite ((heedless_throw _).bind fun _ => heedless_modify fun _ => rfl)
    (heedless_modify fun _ => rfl)

theorem checkCondition_heedless (condition : Expr) : Heedless (checkCondition condition) :=
  (heedless_ask _).bind fun _ => heedless_ite (heedless_throw _) (heedless_pure _)

mutual

theorem check_heedless : (s : Stmt) → Heedless s.check
  | block body p => by
      rw [check]
      exact (failures_heedless body).inScope.bind heedless_combine
  | ifThen condition consequence p => by
      rw [check]
      exact (checkCondition_heedless condition).bind fun _ => check_heedless consequence
  | print value p => by
      rw [check]
      exact (heedless_ask _).bind fun _ => heedless_pure _
  | declare x t value p => by
      rw [check]
      exact checkDeclare_heedless x t value p
  | assign x value p => by
      rw [check]
      exact checkAssign_heedless x value p
  | ret value p => by
      rw [check]
      exact checkRet_heedless value p
  | evaluate value => by
      rw [check]
      exact (heedless_ask _).bind fun _ => heedless_pure _

theorem failures_heedless : (body : List Stmt) → Heedless (failures body)
  | [] => by
      rw [failures]
      exact heedless_pure _
  | s :: body => by
      rw [failures]
      exact (check_heedless s).failure?.bind fun _ =>
        (failures_heedless body).bind fun _ => heedless_pure _

end

end Stmt

/-! ### The errors of a block -/

/-- The errors of the statements of a block, where the block fails. -/
def Block.errors (b : Block) (c : Checker) : List TypeError :=
  match error? (b.check c) with
  | some (.combined errors) => errors
  | _ => []

def Checker.inside (c : Checker) : Checker :=
  c.withEnvironment (c.environment.push Scope.empty)

namespace Stmt

theorem failures_cons {s : Stmt} {body : List Stmt} {errors : List TypeError} {c c' : Checker}
    (h : failures body (after (s.check c)) = .ok errors c') :
    failures (s :: body) c = .ok ((error? (s.check c)).toList ++ errors) c' := by
  rw [failures, failure?_bind, bind_of_ok h]
  rfl

theorem failures_total : (body : List Stmt) → (c : Checker) →
    ∃ errors c', failures body c = .ok errors c'
  | [], c => ⟨[], c, rfl⟩
  | s :: body, c => by
      obtain ⟨errors, c', h⟩ := failures_total body (after (s.check c))
      exact ⟨_, c', failures_cons h⟩

theorem failures_append {front body : List Stmt} {errors errors' : List TypeError}
    {c c₁ c₂ : Checker} (hfront : failures front c = .ok errors c₁)
    (hbody : failures body c₁ = .ok errors' c₂) :
    failures (front ++ body) c = .ok (errors ++ errors') c₂ := by
  induction front generalizing c errors with
  | nil =>
      rw [failures, pure_ok] at hfront
      obtain ⟨rfl, rfl⟩ := hfront
      exact hbody
  | cons s front ih =>
      obtain ⟨rest, c', hrest⟩ := failures_total front (after (s.check c))
      rw [failures_cons hrest] at hfront
      cases hfront
      rw [List.cons_append, failures_cons (ih hrest), List.append_assoc]

/-- Behind a statement that declares nothing, the others have the errors that they
have without it. -/
theorem failures_behind {s : Stmt} (hs : s.declared = []) {body : List Stmt}
    {errors : List TypeError} {c c' : Checker} (h : failures body c = .ok errors c') :
    ∃ c'', failures body (after (s.check c)) = .ok errors c'' := by
  have henv : (after (s.check c)).environment = c.environment := by
    rcases s.environment_check c with henv | ⟨x, hx, -⟩
    · exact henv
    · simp [hs] at hx
  exact (failures_heedless body).ok_of_same henv (check_moves Checker.sameReturnType_lasting s c) h

end Stmt

namespace Block

theorem check_of_failures {b : Block} {c c' : Checker} {errors : List TypeError}
    (h : Stmt.failures b.body c.inside = .ok errors c') :
    b.errors c = errors ∧ error? (b.check c) = error? (combine errors c) := by
  have hcheck : error? (b.check c) = error? (combine errors c) := by
    show error? (Stmt.check (.block b.body b.position) c) = _
    rw [Stmt.check, bind_of_ok (inScope_ok.mpr ⟨c', h, rfl⟩)]
    cases errors <;> rfl
  refine ⟨?_, hcheck⟩
  rw [Block.errors, hcheck]
  cases errors <;> rfl

/-- A block fails with the errors of its statements. -/
theorem error?_check (b : Block) (c : Checker) :
    error? (b.check c) = error? (combine (b.errors c) c) := by
  obtain ⟨errors, c', h⟩ := Stmt.failures_total b.body c.inside
  obtain ⟨herrors, hcheck⟩ := check_of_failures h
  rw [hcheck, herrors]

/-- Without a statement that declares nothing, a block has the same errors as with
it, except for the error of the statement itself. -/
theorem errors_without (front : List Stmt) {s : Stmt} (hs : s.declared = []) (behind : List Stmt)
    (p : Position) (c : Checker) : ∃ errors,
      (⟨front ++ s :: behind, p⟩ : Block).errors c = (⟨front, p⟩ : Block).errors c ++
        (error? (s.check (after (Stmt.failures front c.inside)))).toList ++ errors ∧
      (⟨front ++ behind, p⟩ : Block).errors c = (⟨front, p⟩ : Block).errors c ++ errors := by
  obtain ⟨first, c₁, hfront⟩ := Stmt.failures_total front c.inside
  obtain ⟨errors, c₂, hbehind⟩ := Stmt.failures_total behind c₁
  obtain ⟨c₃, hbehind'⟩ := Stmt.failures_behind hs hbehind
  have hwith := Stmt.failures_append hfront (Stmt.failures_cons hbehind')
  have hwithout := Stmt.failures_append hfront hbehind
  refine ⟨errors, ?_, ?_⟩
  · rw [(check_of_failures (b := ⟨_, p⟩) hwith).1, (check_of_failures (b := ⟨_, p⟩) hfront).1,
      hfront, List.append_assoc]
    rfl
  · rw [(check_of_failures (b := ⟨_, p⟩) hwithout).1, (check_of_failures (b := ⟨_, p⟩) hfront).1]

end Block

/-- Checks leave the scopes as they were, whether they pass or fail, from whatever
state they start. An expression changes nothing and a block no scope. A
statement adds to the innermost scope no name but the one that it declares there,
and a function and a program bind the names of functions. So without a statement
that declares nothing a block has the same errors, except for the one of the
statement. -/
theorem Checker.check_scoped (c : Checker) :
    (∀ e, after (typeOf e c) = c) ∧
    (∀ b : Block, (after (b.check c)).environment = c.environment ∧
      (after (b.check c)).returnType = c.returnType) ∧
    (∀ s : Stmt, c.environment.Extends s.declared (after (s.check c)).environment) ∧
    (∀ f : Function, (after (f.check c)).environment =
      c.environment.setVariable f.name (f.visibleSignature c.environment)) ∧
    (∀ p : Program, c.environment.Binds p.functions (after (p.check c)).environment) ∧
    (∀ b : Block, error? (b.check c) = error? (combine (b.errors c) c)) ∧
    ∀ front s behind p, s.declared = [] → ∃ errors,
      (⟨front ++ s :: behind, p⟩ : Block).errors c = (⟨front, p⟩ : Block).errors c ++
        (error? (s.check (after (Stmt.failures front c.inside)))).toList ++ errors ∧
      (⟨front ++ behind, p⟩ : Block).errors c = (⟨front, p⟩ : Block).errors c ++ errors := by
  refine ⟨fun e => (steady_eq.ask _ c).symm, fun b => ⟨?_, ?_⟩, fun s => s.check_extends c,
    fun f => f.environment_check c, fun p => p.check_binds c, fun b => b.error?_check c, ?_⟩
  · exact Stmt.block_sameEnvironment b.body b.position c
  · exact Stmt.check_moves Checker.sameReturnType_lasting b.toStmt c
  · exact fun front s behind p hs => Block.errors_without front hs behind p c

end Octet
