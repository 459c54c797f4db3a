import Octet.Proofs.Typing.Entries

/-!
The states that checking passes through. A check is a function from states to states
and says nothing of those in between. Here they are listed, for statements, functions
and programs, along the definition of the check and made of the states in which its
parts end. Each comes from the one in front of it by at most one change
(`Checker.Step`), and the last one is the state in which the check ends. That they
lead there does not make them the only such list: which states are meant is said by
the definitions of `states`.
-/

namespace Octet

open Check

/-! ### Changes of the state -/

namespace Checker

/-- The state outside the innermost scope. -/
def closed (c : Checker) : Checker := c.withEnvironment c.environment.pop

/-- At most one change of the state. -/
inductive Step : Checker → Checker → Prop where
  | setVariable (c : Checker) (x : String) (t : Ty) :
      Step c (c.withEnvironment (c.environment.setVariable x t))
  | openScope (c : Checker) : Step c c.inside
  | closeScope (c : Checker) : Step c c.closed
  /-- Remembers what the function returns and whether it has done so. -/
  | remember (c : Checker) (returnType : Ty) (returned : Bool) :
      Step c { c with returnType, returned }

theorem Step.refl (c : Checker) : Step c c := .remember c c.returnType c.returned

/-- From the first state the listed ones are reached one by one, and the last of them
is the second state. -/
inductive Leads : Checker → List Checker → Checker → Prop where
  | nil (c : Checker) : Leads c [] c
  | cons {c c' c'' : Checker} {states : List Checker} : Step c c' → Leads c' states c'' →
      Leads c (c' :: states) c''

theorem Leads.append {c c' c'' : Checker} {states states' : List Checker}
    (h : Leads c states c') (h' : Leads c' states' c'') : Leads c (states ++ states') c'' := by
  induction h with
  | nil => exact h'
  | cons hstep _ ih => exact .cons hstep (ih h')

end Checker

open Checker (Step Leads)

namespace Check

variable {α β : Type}

theorem after_inScope (x : Check α) (c : Checker) :
    after (inScope x c) = (after (x c.inside)).closed := by
  unfold inScope Checker.inside
  cases x (c.withEnvironment (c.environment.push Scope.empty)) <;> rfl

/-- The states that come behind a check that passes. -/
def passing (states : α → Checker → List Checker) :
    EStateM.Result TypeError Checker α → List Checker
  | .ok a c => states a c
  | .error _ _ => []

/-- From every state the check goes through the listed ones. -/
def Traces (states : Checker → List Checker) (x : Check α) : Prop :=
  ∀ c, Leads c (states c) (after (x c))

theorem Moves.traces_nil {x : Check α} (h : Moves Eq x) : Traces (fun _ => []) x := by
  intro c
  rw [← h c]
  exact .nil c

theorem Moves.traces {x : Check α} (h : Moves Step x) : Traces (fun c => [after (x c)]) x :=
  fun c => .cons (h c) (.nil _)

theorem Traces.bind {x : Check α} {f : α → Check β} {states : Checker → List Checker}
    {behind : α → Checker → List Checker} (hx : Traces states x)
    (hf : ∀ a, Traces (behind a) (f a)) :
    Traces (fun c => states c ++ passing behind (x c)) (x >>= f) := by
  intro c
  have hfirst := hx c
  show Leads c (states c ++ passing behind (x c)) (after (EStateM.bind x f c))
  unfold EStateM.bind
  cases hr : x c with
  | ok a c₁ =>
      rw [hr] at hfirst
      exact hfirst.append (hf a c₁)
  | error e c₁ =>
      rw [hr] at hfirst
      exact hfirst.append (.nil _)

theorem Traces.bind_same {x : Check α} {f : α → Check β} {states : Checker → List Checker}
    (hx : Traces states x) (hf : ∀ a, Moves Eq (f a)) : Traces states (x >>= f) := by
  intro c
  rw [after_bind_same x hf]
  exact hx c

theorem Traces.failure?_bind {x : Check Unit} {f : Option TypeError → Check β}
    {states behind : Checker → List Checker} (hx : Traces states x)
    (hf : ∀ error, Traces behind (f error)) :
    Traces (fun c => states c ++ behind (after (x c))) (Check.failure? x >>= f) := by
  intro c
  rw [Check.failure?_bind]
  exact (hx c).append (hf _ _)

theorem Traces.inScope {x : Check α} {states : Checker → List Checker} (hx : Traces states x) :
    Traces (fun c => c.inside :: (states c.inside ++ [after (Check.inScope x c)]))
      (Check.inScope x) := by
  intro c
  refine .cons (.openScope c) ((hx c.inside).append ?_)
  rw [after_inScope]
  exact .cons (.closeScope _) (.nil _)

/-- A change behind a check that changes nothing. -/
theorem Moves.same_bind {x : Check α} {f : α → Check β} (hx : Moves Eq x)
    (hf : ∀ a, Moves Step (f a)) : Moves Step (x >>= f) := by
  intro c
  rcases hx.after_bind f c with h | ⟨a, h⟩
  · rw [h]
    exact .refl c
  · rw [h]
    exact hf a c

/-- A change in front of a check that changes nothing. -/
theorem Moves.bind_same {x : Check α} {f : α → Check β} (hx : Moves Step x)
    (hf : ∀ a, Moves Eq (f a)) : Moves Step (x >>= f) := by
  intro c
  rw [after_bind_same x hf]
  exact hx c

theorem Moves.step {x : Check α} (hx : Moves Eq x) : Moves Step x := by
  intro c
  rw [← hx c]
  exact .refl c

end Check

/-! ### Statements -/

namespace Stmt

mutual

/-- The states that the check of a statement passes through, behind the given one. -/
def states : Stmt → Checker → List Checker
  | block body p, c => c.inside :: (statesAll body c.inside ++ [after ((block body p).check c)])
  | ifThen condition consequence _, c =>
      passing (fun _ c' => consequence.states c') (checkCondition condition c)
  | print value p, c => [after ((print value p).check c)]
  | declare x t value p, c => [after ((declare x t value p).check c)]
  | assign x value p, c => [after ((assign x value p).check c)]
  | ret value p, c => [after ((ret value p).check c)]
  | evaluate value, c => [after ((evaluate value).check c)]

def statesAll : List Stmt → Checker → List Checker
  | [], _ => []
  | s :: body, c => s.states c ++ statesAll body (after (s.check c))

end

theorem typeOf_same (value : Expr) : Moves Eq (typeOf value) := steady_eq.ask _

theorem checkDeclare_step (x : String) (t : Ty) (value : Expr) (p : Position) :
    Moves Step (checkDeclare x t value p) := by
  refine (typeOf_same value).same_bind fun received => steady_eq.get.same_bind fun c => ?_
  refine moves_ite ((steady_eq.throw _).same_bind fun _ => ?_) ?_ <;>
    exact (steady_eq.ask _).same_bind fun expected =>
      Moves.bind_same (fun c => .setVariable c x expected) fun _ =>
        moves_ite (steady_eq.throw _) (steady_eq.pure _)

theorem checkRet_step (value : Expr) (p : Position) : Moves Step (checkRet value p) := by
  have hret : Moves Step (modify fun c => { c with returned := true } : Check PUnit) :=
    fun c => .remember c c.returnType true
  refine (typeOf_same value).same_bind fun received => steady_eq.get.same_bind fun c => ?_
  exact moves_ite ((steady_eq.throw _).same_bind fun _ => hret) hret

theorem typeOf_step (value : Expr) :
    Moves Step (typeOf value >>= fun _ => pure PUnit.unit) :=
  (steady_eq.bind (typeOf_same value) fun _ => steady_eq.pure _).step

mutual

/-- The check of a statement goes through its states. Without a block there is one of
them: a statement changes the state at most once. -/
theorem check_traces : (s : Stmt) → Traces s.states s.check
  | block body p => by
      intro c
      rw [states, check, after_bind_same _ fun errors => steady_eq.combine errors]
      exact (failures_traces body).inScope c
  | ifThen condition consequence _ => by
      intro c
      rw [states, check]
      exact (checkCondition_moves steady_eq condition).traces_nil.bind
        (fun _ => check_traces consequence) c
  | print value p => by
      refine Moves.traces ?_
      rw [check]
      exact typeOf_step value
  | declare x t value p => by
      refine Moves.traces ?_
      rw [check]
      exact checkDeclare_step x t value p
  | assign x value p => by
      refine Moves.traces ?_
      rw [check]
      exact (checkAssign_moves steady_eq x value p).step
  | ret value p => by
      refine Moves.traces ?_
      rw [check]
      exact checkRet_step value p
  | evaluate value => by
      refine Moves.traces ?_
      rw [check]
      exact typeOf_step value

theorem failures_traces : (body : List Stmt) → Traces (statesAll body) (failures body)
  | [] => by
      intro c
      rw [statesAll, failures]
      exact .nil c
  | s :: body => by
      intro c
      rw [statesAll, failures]
      refine (check_traces s).failure?_bind (fun error => ?_) c
      exact (failures_traces body).bind_same fun errors => steady_eq.pure _

end

end Stmt

/-! ### Functions and programs -/

namespace Function

def parameterStates : List Parameter → Checker → List Checker
  | [], _ => []
  | p :: ps, c =>
      passing (fun t c₁ =>
          let declared := Check.update (fun env => env.declare p.name t p.position) c₁
          after declared :: passing (fun _ c₂ => parameterStates ps c₂) declared)
        (Check.ask (fun env => env.resolve p.type p.position) c)

def bodyStates (f : Function) (c : Checker) : List Checker :=
  passing (fun returns c₁ =>
      let started : Checker := { c₁ with returnType := returns }
      started :: (parameterStates f.parameters started ++
        passing (fun _ c₂ => f.body.toStmt.states c₂) (declareParameters f.parameters started)))
    (Check.ask (fun env => env.resolve f.returns f.position) c)

def states (f : Function) (c : Checker) : List Checker :=
  let started : Checker := { c with returned := false, returnType := f.returns }
  let named := started.withEnvironment
    (started.environment.setVariable f.name (f.visibleSignature started.environment))
  started :: named :: named.inside :: (f.bodyStates named.inside ++ [after (f.check c)])

theorem declare_step (x : String) (t : Environment → Ty) (p : Position) :
    Moves Step (Check.update fun env => env.declare x (t env) p) := by
  intro c
  by_cases hx : c.environment.current.hasVariable x = true
  · have hdeclare := declare_of_taken hx (t c.environment) p
    simp only [Check.update, hdeclare]
    exact .refl c
  · have hdeclare := declare_of_new hx (t c.environment) p
    simp only [Check.update, hdeclare]
    exact .setVariable c x _

theorem declareParameters_traces : (ps : List Parameter) →
    Traces (parameterStates ps) (declareParameters ps)
  | [] => fun c => .nil c
  | p :: ps => by
      rw [declareParameters]
      refine (steady_eq.ask _).traces_nil.bind fun t => ?_
      exact (declare_step p.name (fun _ => t) p.position).traces.bind fun _ =>
        declareParameters_traces ps

theorem checkBody_traces (f : Function) : Traces f.bodyStates f.checkBody := by
  refine (steady_eq.ask _).traces_nil.bind fun returns c => ?_
  refine .cons (.remember c returns c.returned) ?_
  refine (declareParameters_traces f.parameters).bind (fun _ => ?_) _
  refine (Stmt.check_traces f.body.toStmt).bind_same fun _ => ?_
  exact steady_eq.bind steady_eq.get fun c => moves_ite (steady_eq.throw _) (steady_eq.pure _)

theorem check_traces (f : Function) : Traces f.states f.check := by
  intro c
  refine .cons (.remember c f.returns false) (.cons (.setVariable _ f.name _) ?_)
  exact f.checkBody_traces.inScope _

def declareStates : List Function → Checker → List Checker
  | [], _ => []
  | f :: fs, c =>
      let declared := after (Check.update
        (fun env => env.declare f.name (f.visibleSignature env) f.position) c)
      declared :: declareStates fs declared

def checkStates : List Function → Checker → List Checker
  | [], _ => []
  | f :: fs, c => f.states c ++ checkStates fs (after (f.check c))

theorem declareAll_traces : (fs : List Function) → Traces (declareStates fs) (declareAll fs)
  | [] => fun c => .nil c
  | f :: fs => by
      rw [declareAll]
      refine (declare_step f.name f.visibleSignature f.position).traces.failure?_bind
        fun error => ?_
      exact (declareAll_traces fs).bind_same fun errors => steady_eq.pure _

theorem leads_checkedBy : (fs : List Function) → (c : Checker) →
    Leads c (checkStates fs c) (checkedBy c fs)
  | [], c => .nil c
  | f :: fs, c => (f.check_traces c).append (leads_checkedBy fs _)

end Function

namespace Program

/-- The states that checking a program passes through, behind the initial one. -/
def states (p : Program) : List Checker :=
  Function.declareStates p.functions Checker.initial ++
    Function.checkStates p.functions p.declared

theorem after_check (p : Program) : after (p.check Checker.initial) =
    Function.checkedBy p.declared p.functions := by
  have hcheck : p.check = p.faults >>= fun groups => Check.combine groups.flatten := by
    simp [check, faults, Function.failures_eq]
  rw [hcheck, after_bind_same p.faults (fun groups => steady_eq.combine _), faults_eq]
  rfl

theorem leads_states (p : Program) :
    Leads Checker.initial p.states (after (p.check Checker.initial)) := by
  rw [after_check]
  exact (Function.declareAll_traces p.functions Checker.initial).append
    (Function.leads_checkedBy p.functions p.declared)

end Program

end Octet
