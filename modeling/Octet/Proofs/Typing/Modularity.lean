import Octet.Proofs.Typing.Decision
import Octet.Proofs.Typing.Order
import Octet.Proofs.Typing.Renaming

/-!
Functions are checked one by one. All functions of a program are checked with
the same state, and every one of them changes it; but what it leaves behind, be
it right or wrong, is what the others knew before: the names of all functions and
their types. So if no two functions have the same name, the error of a function
is a function of its own text and of the known of all of them
(`Function.errorAmong`), and neither the order of the functions nor the bodies of
the others have a say in it.
-/

namespace Octet

/-! ### What checks leave behind -/

namespace Check

variable {α β : Type} {P : Checker → Checker → Prop}

def after : EStateM.Result TypeError Checker α → Checker
  | .ok _ c => c
  | .error _ c => c

def error? : EStateM.Result TypeError Checker α → Option TypeError
  | .ok _ _ => none
  | .error e _ => some e

theorem failure?_eq (x : Check Unit) (c : Checker) :
    failure? x c = .ok (error? (x c)) (after (x c)) := by
  unfold failure?
  cases x c <;> rfl

/-- Whether it passes or fails, the check moves from a state only to states that
are in the relation to it. -/
def Moves (P : Checker → Checker → Prop) (x : Check α) : Prop := ∀ c, P c (after (x c))

/-- A relation that every state is in to itself, and that goes on from one step
to the next. -/
structure Steady (P : Checker → Checker → Prop) : Prop where
  refl : ∀ c, P c c
  trans : ∀ c₁ c₂ c₃, P c₁ c₂ → P c₂ c₃ → P c₁ c₃

theorem Steady.pure (h : Steady P) (a : α) : Moves P (pure a : Check α) := h.refl

theorem Steady.throw (h : Steady P) (e : TypeError) : Moves P (throw e : Check α) := h.refl

theorem Steady.get (h : Steady P) : Moves P (get : Check Checker) := h.refl

theorem Steady.ask (h : Steady P) (f : Environment → Except TypeError α) :
    Moves P (Check.ask f) := by
  intro c
  unfold Check.ask
  cases f c.environment <;> exact h.refl c

theorem Steady.combine (h : Steady P) (errors : List TypeError) :
    Moves P (Check.combine errors) := by
  cases errors with
  | nil => exact h.pure ()
  | cons e es => exact h.throw _

theorem Steady.bind (h : Steady P) {x : Check α} {f : α → Check β} (hx : Moves P x)
    (hf : ∀ a, Moves P (f a)) : Moves P (x >>= f) := by
  intro c
  show P c (after (EStateM.bind x f c))
  have hfirst := hx c
  unfold EStateM.bind
  cases hc : x c with
  | error e c₁ =>
      rw [hc] at hfirst
      exact hfirst
  | ok a c₁ =>
      rw [hc] at hfirst
      exact h.trans _ _ _ hfirst (hf a c₁)

theorem moves_ite {b : Prop} [Decidable b] {x y : Check α} (hx : Moves P x) (hy : Moves P y) :
    Moves P (if b then x else y) := by
  split
  · exact hx
  · exact hy

theorem Moves.failure? {x : Check Unit} (hx : Moves P x) : Moves P (Check.failure? x) := by
  intro c
  rw [failure?_eq]
  exact hx c

end Check

open Check

/-- The scopes around the innermost one stay as they are. -/
def Checker.SameOuter (c c' : Checker) : Prop :=
  c'.environment.enclosing = c.environment.enclosing

theorem Checker.sameOuter_steady : Steady Checker.SameOuter :=
  ⟨fun _ => rfl, fun _ _ _ h h' => h'.trans h⟩

/-- A check in a scope of its own gives back the environment. -/
theorem Check.Moves.environment_inScope {α : Type} {x : Check α} (h : Moves Checker.SameOuter x)
    (c : Checker) : (after (Check.inScope x c)).environment = c.environment := by
  have hinside := h (c.withEnvironment (c.environment.push Scope.empty))
  have hpop (c₁ : Checker) (h₁ : Checker.SameOuter
      (c.withEnvironment (c.environment.push Scope.empty)) c₁) :
      c₁.environment.pop = c.environment := by
    have henclosing : c₁.environment.enclosing = c.environment.scopes := h₁
    unfold Environment.pop
    rw [henclosing]
    rfl
  unfold Check.inScope
  cases hc : x (c.withEnvironment (c.environment.push Scope.empty)) with
  | ok a c₁ =>
      rw [hc] at hinside
      exact hpop c₁ hinside
  | error e c₁ =>
      rw [hc] at hinside
      exact hpop c₁ hinside

/-! ### What statements do to the state -/

/-- A relation that goes on over all that statements do to the state: declare a
variable of the innermost scope, remember that a value is returned, and work in
a scope of their own. -/
structure Check.Lasting (P : Checker → Checker → Prop) : Prop extends Steady P where
  declare : ∀ c x t, P c (c.withEnvironment (c.environment.setVariable x t))
  ret : ∀ c, P c { c with returned := true }
  inScope : ∀ {α : Type} {x : Check α}, Moves P x → Moves P (Check.inScope x)

namespace Stmt

variable {P : Checker → Checker → Prop}

theorem checkDeclare_moves (h : Lasting P) (x : String) (t : Ty) (value : Expr) (p : Position) :
    Moves P (checkDeclare x t value p) := by
  refine h.bind (h.ask _) fun received => h.bind h.get fun c => ?_
  refine moves_ite (h.bind (h.throw _) fun _ => ?_) ?_ <;>
    exact h.bind (h.ask _) fun expected => h.bind (fun c => h.declare c x expected) fun _ =>
      moves_ite (h.throw _) (h.pure _)

theorem checkAssign_moves (h : Steady P) (x : String) (value : Expr) (p : Position) :
    Moves P (checkAssign x value p) :=
  h.bind (h.ask _) fun _ => h.bind (h.ask _) fun _ => moves_ite (h.throw _) (h.pure _)

theorem checkRet_moves (h : Steady P) (hret : ∀ c, P c { c with returned := true })
    (value : Expr) (p : Position) : Moves P (checkRet value p) := by
  refine h.bind (h.ask _) fun received => h.bind h.get fun c => ?_
  exact moves_ite (h.bind (h.throw _) fun _ => hret) hret

theorem checkCondition_moves (h : Steady P) (condition : Expr) :
    Moves P (checkCondition condition) :=
  h.bind (h.ask _) fun _ => moves_ite (h.throw _) (h.pure _)

mutual

theorem check_moves (h : Lasting P) : (s : Stmt) → Moves P s.check
  | block body p => by
      rw [check]
      exact h.bind (h.inScope (failures_moves h body)) fun errors => h.combine errors
  | ifThen condition consequence p => by
      rw [check]
      exact h.bind (checkCondition_moves h.toSteady condition) fun _ => check_moves h consequence
  | print value p => by
      rw [check]
      exact h.bind (h.ask _) fun _ => h.pure _
  | declare x t value p => by
      rw [check]
      exact checkDeclare_moves h x t value p
  | assign x value p => by
      rw [check]
      exact checkAssign_moves h.toSteady x value p
  | ret value p => by
      rw [check]
      exact checkRet_moves h.toSteady h.ret value p
  | evaluate value => by
      rw [check]
      exact h.bind (h.ask _) fun _ => h.pure _

theorem failures_moves (h : Lasting P) : (body : List Stmt) → Moves P (failures body)
  | [] => by
      rw [failures]
      exact h.pure _
  | s :: body => by
      rw [failures]
      exact h.bind (check_moves h s).failure? fun _ =>
        h.bind (failures_moves h body) fun _ => h.pure _

end

end Stmt

theorem Checker.sameOuter_lasting : Lasting Checker.SameOuter where
  toSteady := Checker.sameOuter_steady
  declare _ _ _ := rfl
  ret _ := rfl
  inScope h c := congrArg Environment.enclosing (h.environment_inScope c)

namespace Function

open Checker (SameOuter sameOuter_steady)

theorem declareParameters_sameOuter : (ps : List Parameter) →
    Moves SameOuter (declareParameters ps)
  | [] => sameOuter_steady.pure _
  | p :: ps => by
      rw [declareParameters]
      refine sameOuter_steady.bind (sameOuter_steady.ask _) fun t => ?_
      refine sameOuter_steady.bind (fun c => ?_) fun _ => declareParameters_sameOuter ps
      cases hdeclare : c.environment.declare p.name t p.position with
      | error e =>
          simp only [Check.update, hdeclare]
          exact sameOuter_steady.refl c
      | ok env =>
          obtain ⟨-, rfl⟩ := Environment.declare_ok.mp hdeclare
          simp only [Check.update, hdeclare]
          rfl

theorem checkBody_sameOuter (f : Function) : Moves SameOuter f.checkBody := by
  have h := sameOuter_steady
  refine h.bind (h.ask _) fun returns => h.bind (fun c => rfl) fun _ => ?_
  refine h.bind (declareParameters_sameOuter f.parameters) fun _ => ?_
  refine h.bind (Stmt.check_moves Checker.sameOuter_lasting f.body.toStmt) fun _ => ?_
  exact h.bind h.get fun c => moves_ite (h.throw _) (h.pure _)

/-- A function leaves behind its own name, be it right or wrong. -/
theorem environment_check (f : Function) (c : Checker) : (after (f.check c)).environment =
    c.environment.setVariable f.name (f.visibleSignature c.environment) := by
  rw [check_eq]
  exact f.checkBody_sameOuter.environment_inScope _

/-! ### One function among others -/

/-- What others see of a function: its name and its type, as written. -/
def declaration (f : Function) : String × Ty := (f.name, f.signature)

end Function

def Names.ofDeclarations (known : List (String × Ty)) : Names :=
  Names.ofList Prod.fst Prod.snd known

/-- A checker that knows some functions and nothing else. -/
def Checker.knowing (known : List (String × Ty)) : Checker where
  environment := ⟨⟨⟨known⟩, Bindings.empty⟩, []⟩
  returnType := .void
  returned := false

/-- The error of a function on its own, where nothing but some functions is
known. -/
def Function.errorAmong (known : List (String × Ty)) (f : Function) : Option TypeError :=
  error? (f.check (Checker.knowing known))

def Program.declarations (p : Program) : List (String × Ty) := p.functions.map Function.declaration

theorem Bindings.find?_eq_ofDeclarations (known : List (String × Ty)) (x : String) :
    find? x ⟨known⟩ = Names.ofDeclarations known x := by
  induction known with
  | nil => rfl
  | cons first known ih =>
      simp only [find?, Names.ofDeclarations, Names.ofList] at ih ⊢
      rw [List.lookup_cons, List.find?_cons, ih, BEq.comm]
      cases first.1 == x <;> rfl

theorem Names.ofDeclarations_functions (fs : List Function) :
    ofDeclarations (fs.map Function.declaration) = ofFunctions fs := by
  funext x
  simp only [ofDeclarations, ofFunctions, ofList, List.find?_map, Option.map_map]
  rfl

/-- Of functions with different names the same is known in any order. -/
theorem Names.ofDeclarations_perm {known known' : List (String × Ty)}
    (hnodup : (known.map Prod.fst).Nodup) (h : known'.Perm known) :
    ofDeclarations known' = ofDeclarations known := by
  have hfound {hs : List (String × Ty)} (hs_nodup : (hs.map Prod.fst).Nodup) (x : String) (t : Ty) :
      ofDeclarations hs x = some t ↔ (x, t) ∈ hs := by
    constructor
    · intro hx
      obtain ⟨first, hmem, rfl, rfl⟩ := Names.mem_of_ofList hx
      exact hmem
    · exact fun hmem => Names.ofList_of_mem hs_nodup hmem
  funext x
  apply Option.ext
  intro t
  rw [hfound hnodup, hfound ((h.map Prod.fst).nodup_iff.mpr hnodup), h.mem_iff]

namespace Function

theorem global_knowing (known : List (String × Ty)) :
    Global (Names.ofDeclarations known) (Checker.knowing known).environment where
  plain := by simp [Environment.Plain, Environment.scopes, Checker.knowing]
  context := congrArg (fun names => [names]) (funext (Bindings.find?_eq_ofDeclarations known))

/-- Two environments that hold the names of the same functions are alike. -/
theorem Global.renamed {globals : Names} {env env' : Environment} (h : Global globals env)
    (h' : Global globals env') : env.Renamed id env' := by
  obtain ⟨hcurrent, henclosing⟩ := List.cons.inj h.context
  obtain ⟨hcurrent', henclosing'⟩ := List.cons.inj h'.context
  rw [List.map_eq_nil_iff] at henclosing henclosing'
  refine ⟨⟨fun x => ?_, fun x => ?_⟩, ?_⟩
  · exact congrFun (hcurrent'.trans hcurrent.symm) x
  · rw [h.plain _ (List.mem_cons_self ..), h'.plain _ (List.mem_cons_self ..)]
  · rw [henclosing, henclosing']
    exact .nil

/-- The error of a function depends on the names of the functions only, not on
what was checked before. -/
theorem Global.error?_check {globals : Names} {c c' : Checker} (h : Global globals c.environment)
    (h' : Global globals c'.environment) (f : Function) :
    error? (f.check c') = error? (f.check c) := by
  have hmirrors := check_mirrors (φ := id) Function.injective_id f.fixed_id (h.renamed h')
  rw [renamed_id] at hmirrors
  generalize f.check c = r, f.check c' = r' at hmirrors
  cases hmirrors with
  | ok _ _ => rfl
  | error _ => rw [TypeError.renamed_id]; rfl

/-- What is known of the functions stays known behind the check of one of
them. -/
theorem Global.after_check {globals : Names} {c : Checker} (h : Global globals c.environment)
    {f : Function} (hf : globals f.name = some f.signature) :
    Global globals (after (f.check c)).environment := by
  rw [environment_check, visibleSignature_eq f h.plain]
  exact h.setVariable hf

/-- Functions that are all known are each wrong in their own way. -/
theorem Global.faults {known : List (String × Ty)} : (fs : List Function) →
    (∀ f ∈ fs, Names.ofDeclarations known f.name = some f.signature) → {c : Checker} →
    Global (Names.ofDeclarations known) c.environment →
    ∃ c', Function.faults (fs.zip (fs.map fun _ => none)) c =
      .ok (fs.map fun f => (f.errorAmong known).toList) c'
  | [], _, c, _ => ⟨c, rfl⟩
  | f :: fs, hknown, c, hc => by
      obtain ⟨c', hrest⟩ := Global.faults fs (fun g hg => hknown g (List.mem_cons_of_mem _ hg))
        (hc.after_check (hknown f (List.mem_cons_self ..)))
      have hfirst := failure?_eq f.check c
      rw [Global.error?_check (global_knowing known) hc f] at hfirst
      refine ⟨c', ?_⟩
      rw [List.map_cons, List.map_cons, List.zip_cons_cons, Function.faults, bind_ok]
      exact ⟨_, _, hfirst, bind_ok.mpr ⟨_, _, hrest, rfl⟩⟩

end Function

theorem TypeError.combine_ok_iff {errors : List TypeError} :
    combine errors = .ok () ↔ errors = [] := by
  cases errors with
  | nil => exact iff_of_true rfl rfl
  | cons e es => exact iff_of_false (by simp [combine]) (List.cons_ne_nil _ _)

namespace Program

theorem names_declarations (p : Program) :
    p.declarations.map Prod.fst = p.functions.map Function.name := by
  simp [declarations, Function.declaration, Function.comp_def]

/-- If the names of its functions are different, each function of a program is
wrong in its own way. -/
theorem faults_of_distinct {p : Program} {known : List (String × Ty)}
    (hdistinct : (p.functions.map Function.name).Nodup)
    (hsame : Names.ofDeclarations known = Names.ofFunctions p.functions) :
    ∃ c, p.faults Checker.initial =
      .ok (p.functions.map fun f => (f.errorAmong known).toList) c := by
  obtain ⟨c, hdeclare⟩ := Function.declareAll_of_distinct p.functions hdistinct
    Environment.plain_empty (c := Checker.initial) (fun _ _ => rfl)
  obtain ⟨-, hglobal⟩ := global_of_declareAll hdeclare
  rw [← hsame] at hglobal
  obtain ⟨c', hfaults⟩ := Function.Global.faults p.functions (fun f hf => by
    rw [hsame]
    exact Names.ofList_of_mem hdistinct hf) hglobal
  exact ⟨c', bind_ok.mpr ⟨_, _, hdeclare, hfaults⟩⟩

theorem typeCheck_of_distinct {p : Program} {known : List (String × Ty)}
    (hdistinct : (p.functions.map Function.name).Nodup)
    (hsame : Names.ofDeclarations known = Names.ofFunctions p.functions) :
    p.typeCheck = TypeError.combine (p.functions.filterMap (·.errorAmong known)) := by
  obtain ⟨c, hfaults⟩ := faults_of_distinct hdistinct hsame
  rw [typeCheck_of_faults hfaults, ← List.flatMap_def, List.filterMap_eq_flatMap_toList]

/-- Let the functions of a program have different names, and let another program
have functions with the same names and types in any order, whatever else is in
them. What is wrong with each function of the other program is the error that it
has on its own among the functions of the first. The same functions in another
order therefore pass together, or have the same errors in the other order. -/
theorem typeCheck_modular {p q : Program} (hdistinct : (p.functions.map Function.name).Nodup)
    (hsame : q.declarations.Perm p.declarations) :
    (∃ c, q.faults Checker.initial =
        .ok (q.functions.map fun f => (f.errorAmong p.declarations).toList) c) ∧
      q.typeCheck = TypeError.combine (q.functions.filterMap (·.errorAmong p.declarations)) ∧
      (q.functions.Perm p.functions →
        (q.typeCheck = .ok () ↔ p.typeCheck = .ok ()) ∧
          p.typeCheck = TypeError.combine (p.functions.filterMap (·.errorAmong p.declarations)) ∧
          (q.functions.filterMap (·.errorAmong p.declarations)).Perm
            (p.functions.filterMap (·.errorAmong p.declarations))) := by
  have hnodup : (p.declarations.map Prod.fst).Nodup := by rwa [names_declarations]
  have hp : Names.ofDeclarations p.declarations = Names.ofFunctions p.functions :=
    Names.ofDeclarations_functions p.functions
  have hq : Names.ofDeclarations p.declarations = Names.ofFunctions q.functions :=
    (Names.ofDeclarations_perm hnodup hsame).symm.trans (Names.ofDeclarations_functions q.functions)
  have hdistinct' : (q.functions.map Function.name).Nodup := by
    rw [← names_declarations]
    exact (hsame.map Prod.fst).nodup_iff.mpr hnodup
  have hcheck := typeCheck_of_distinct hdistinct' hq
  refine ⟨faults_of_distinct hdistinct' hq, hcheck, fun hperm => ?_⟩
  have hcheck' := typeCheck_of_distinct hdistinct hp
  have herrors := hperm.filterMap (·.errorAmong p.declarations)
  refine ⟨?_, hcheck', herrors⟩
  rw [hcheck, hcheck', TypeError.combine_ok_iff, TypeError.combine_ok_iff]
  exact ⟨fun h => (h ▸ herrors).nil_eq.symm, fun h => (h ▸ herrors).eq_nil⟩

/-- A function that goes wrong halfway, one that is right and one that is wrong,
in both orders. -/
theorem typeCheck_modular_reversed : ∃ p q : Program, q.functions = p.functions.reverse ∧
    (∃ c, q.faults Checker.initial =
      .ok (q.functions.map fun f => (f.errorAmong p.declarations).toList) c) ∧
    (q.functions.map fun f =>
        (f.name, ((f.errorAmong p.declarations).toList.flatMap TypeError.leaves).map Prod.fst)) =
      [("h", [.mismatch .u8 .bool]), ("g", []), ("f", [.mismatch .bool .u8, .mismatch .u8 .bool])] ∧
    (q.functions.filterMap (·.errorAmong p.declarations)).Perm
      (p.functions.filterMap (·.errorAmong p.declarations)) := by
  let source := "def f() -> u8:
    let a: bool = 1
    return g(a)
def g(a: u8) -> u8:
    return a + 1
def h() -> u8:
    return g(true)
"
  have herrors : (ofSource source).toOption.map (fun p => (p.functions.map Function.name,
      p.functions.reverse.map fun f =>
        (f.name, ((f.errorAmong p.declarations).toList.flatMap TypeError.leaves).map Prod.fst))) =
    some (["f", "g", "h"], [("h", [.mismatch .u8 .bool]), ("g", []),
      ("f", [.mismatch .bool .u8, .mismatch .u8 .bool])]) := by decide +kernel
  obtain ⟨p, hp, hshape⟩ := Option.map_eq_some_iff.mp herrors
  obtain ⟨hnames, hfaults⟩ := Prod.mk.inj hshape
  have hmodular := typeCheck_modular (p := p) (q := ⟨p.functions.reverse, p.position⟩)
    (by rw [hnames]; decide) ((List.reverse_perm p.functions).map _)
  exact ⟨p, _, rfl, hmodular.1, hfaults, (hmodular.2.2 (List.reverse_perm _)).2.2⟩

end Program

end Octet
