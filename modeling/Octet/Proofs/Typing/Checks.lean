import Octet.Proofs.Typing.Rules
import Octet.Proofs.Tree.Shape
import Octet.Typing.Program

/-!
What it means for a check to pass. A check is a state transformer that may
fail; here each way of building checks gets one equivalence that says when it
passes, with which value and in which state it ends. Proofs about checks are
made of these equivalences and never open the monad.

The second half reads the checker's environment as a context of the typing
rules, so that the two sides can be compared.
-/

namespace Octet

namespace Check

variable {α β : Type}

theorem bind_ok {x : Check α} {f : α → Check β} {c c'' : Checker} {b : β} :
    (x >>= f) c = .ok b c'' ↔ ∃ a c', x c = .ok a c' ∧ f a c' = .ok b c'' := by
  change EStateM.bind x f c = _ ↔ _
  unfold EStateM.bind
  cases x c with
  | ok a c' => simp [and_assoc]
  | error e c' => simp

theorem pure_ok {a b : α} {c c' : Checker} :
    (pure a : Check α) c = .ok b c' ↔ b = a ∧ c' = c := by
  change EStateM.pure a c = _ ↔ _
  simp [EStateM.pure, eq_comm]

theorem get_ok {a c c' : Checker} :
    (get : Check Checker) c = .ok a c' ↔ a = c ∧ c' = c := by
  change EStateM.Result.ok c c = _ ↔ _
  simp [eq_comm]

theorem modify_ok {f : Checker → Checker} {u : PUnit} {c c' : Checker} :
    (modify f : Check PUnit) c = .ok u c' ↔ c' = f c := by
  change EStateM.Result.ok PUnit.unit (f c) = _ ↔ _
  simp [eq_comm]

theorem throw_ok {e : TypeError} {a : α} {c c' : Checker} :
    (throw e : Check α) c = .ok a c' ↔ False := by
  change EStateM.Result.error e c = _ ↔ _
  simp

/-- A failure that stands in front of the rest keeps it from being reached. -/
theorem unless_ok {b : Prop} [Decidable b] {e : TypeError} {f : β → Check α} {x : Check α}
    {a : α} {c c' : Checker} :
    (if b then throw e >>= f else x) c = .ok a c' ↔ ¬ b ∧ x c = .ok a c' := by
  split
  · simp [bind_ok, throw_ok, *]
  · simp [*]

/-- A failure that stands at the end. -/
theorem unless_end_ok {b : Prop} [Decidable b] {e : TypeError} {u : PUnit} {c c' : Checker} :
    (if b then throw e else pure PUnit.unit : Check PUnit) c = .ok u c' ↔ ¬ b ∧ c' = c := by
  split <;> simp [throw_ok, pure_ok, *]

theorem ask_ok {f : Environment → Except TypeError α} {a : α} {c c' : Checker} :
    ask f c = .ok a c' ↔ f c.environment = .ok a ∧ c' = c := by
  unfold ask
  cases f c.environment with
  | ok b => simp [eq_comm]
  | error e => simp

theorem update_ok {f : Environment → Except TypeError Environment} {u : Unit} {c c' : Checker} :
    update f c = .ok u c' ↔ ∃ env, f c.environment = .ok env ∧ c' = c.withEnvironment env := by
  unfold update
  cases f c.environment with
  | ok b => simp [eq_comm]
  | error e => simp

theorem inScope_ok {check : Check α} {a : α} {c c' : Checker} :
    inScope check c = .ok a c' ↔
      ∃ c₁, check (c.withEnvironment (c.environment.push Scope.empty)) = .ok a c₁ ∧
        c' = c₁.withEnvironment c₁.environment.pop := by
  unfold inScope
  cases check (c.withEnvironment (c.environment.push Scope.empty)) with
  | ok b c₁ => simp [eq_comm, and_assoc]
  | error e c₁ => simp

theorem failure?_none {check : Check Unit} {c c' : Checker} :
    failure? check c = .ok none c' ↔ check c = .ok () c' := by
  unfold failure?
  cases check c <;> simp

theorem combine_ok {errors : List TypeError} {u : Unit} {c c' : Checker} :
    combine errors c = .ok u c' ↔ errors = [] ∧ c' = c := by
  cases errors with
  | nil => simp [combine, TypeError.combine, pure_ok]
  | cons e es => simp [combine, TypeError.combine, throw_ok]

/-- A check that always ends in a value, whatever it finds. -/
theorem failure?_total (check : Check Unit) (c : Checker) :
    ∃ e c', failure? check c = .ok e c' := by
  unfold failure?
  cases check c with
  | ok u c' => exact ⟨none, c', rfl⟩
  | error e c' => exact ⟨some e, c', rfl⟩

end Check

theorem Ty.Concrete.written {t : Ty} (h : t.Concrete) : t.Written := by
  cases t <;> trivial

/-! ### Environments as contexts -/

def Scope.names (s : Scope) : Names := fun x => s.vars.find? x

namespace Environment

/-- The scopes of an environment as the rules see them. -/
def context (env : Environment) : Context := env.scopes.map Scope.names

/-- No scope gives a name to a type. Checking never declares one, so this holds
of every environment that a program is checked in. -/
def Plain (env : Environment) : Prop := ∀ s ∈ env.scopes, s.types = Bindings.empty

theorem plain_empty : empty.Plain := by
  simp [Plain, scopes, empty, Scope.empty]

theorem Plain.push {env : Environment} (h : env.Plain) : (env.push Scope.empty).Plain := by
  intro s hs
  rcases List.mem_cons.mp hs with rfl | hs
  · rfl
  · exact h s hs

theorem Plain.setVariable {env : Environment} (h : env.Plain) (x : String) (t : Ty) :
    (env.setVariable x t).Plain := by
  intro s hs
  rcases List.mem_cons.mp hs with rfl | hs
  · exact h env.current (List.mem_cons_self ..)
  · exact h s (List.mem_cons_of_mem _ hs)

@[simp] theorem context_push (env : Environment) :
    (env.push Scope.empty).context = Names.empty :: env.context := rfl

theorem context_cons (env : Environment) :
    env.context = env.current.names :: env.enclosing.map Scope.names := rfl

theorem names_insert (b : Bindings) (x : String) (t : Ty) :
    (fun y => (b.insert x t).find? y) = Names.bind (fun y => b.find? y) x t := by
  funext y
  by_cases h : y = x
  · subst h
    simp [Names.bind]
  · simp [Names.bind, h, Bindings.find?_insert_of_ne h]

@[simp] theorem context_setVariable (env : Environment) (x : String) (t : Ty) :
    (env.setVariable x t).context =
      env.current.names.bind x t :: env.enclosing.map Scope.names := by
  rw [context_cons]
  congr 1
  exact names_insert env.current.vars x t

theorem findVariable?_eq (env : Environment) (x : String) :
    env.findVariable? x = env.context.type? x := by
  unfold findVariable? context
  induction env.scopes with
  | nil => rfl
  | cons s ss ih =>
      simp only [List.findSome?_cons, List.map_cons, Context.type?, Scope.names]
      cases s.vars.find? x with
      | none => exact ih
      | some t => rfl

theorem hasVariable_eq_false {env : Environment} {x : String} :
    env.current.hasVariable x = false ↔ env.current.names x = none := by
  simp [Scope.hasVariable, Scope.names]

theorem variableType_ok {env : Environment} {x : String} {p : Position} {t : Ty} :
    env.variableType x p = .ok t ↔ env.context.type? x = some t := by
  unfold variableType
  rw [findVariable?_eq]
  cases env.context.type? x <;> simp

theorem findType?_plain {env : Environment} (h : env.Plain) (name : String) :
    env.findType? name = none := by
  unfold findType?
  rw [List.findSome?_eq_none_iff]
  intro s hs
  rw [h s hs]
  rfl

/-- Of the types that a program can write, just the concrete ones mean
something where no type has a name. -/
theorem resolve_ok {env : Environment} (h : env.Plain) {t t' : Ty} (ht : t.Written)
    {p : Position} : env.resolve t p = .ok t' ↔ t.Concrete ∧ t' = t := by
  cases t with
  | named name => simp [resolve, namedType, findType?_plain h, Ty.Concrete]
  | literal => exact ht.elim
  | function ps r => exact ht.elim
  | void | u8 | i8 | bool => simp [resolve, Ty.Concrete, eq_comm]

end Environment

end Octet
