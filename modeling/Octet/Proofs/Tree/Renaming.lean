import Octet.Proofs.Tree.Rendering

/-!
Trees with other names for their variables and other positions. Only the names
of variables change: a parameter, a declared variable, the target of an
assignment and every use of a variable. Functions keep their names, and so do
the calls of them.

A tree without its positions is one such tree, and so is the tree itself.
-/

namespace Octet

variable (ρ : String → String) (φ : Position → Position)

/-! ### Renamed trees -/

namespace Expr

mutual

/-- The expression with other variables and positions. -/
def renamed : Expr → Expr
  | number n p => number n (φ p)
  | boolean b p => boolean b (φ p)
  | var x p => var (ρ x) (φ p)
  | negate e p => negate e.renamed (φ p)
  | add l r p => add l.renamed r.renamed (φ p)
  | compare c l r p => compare c l.renamed r.renamed (φ p)
  | call f args p => call f (renamedAll args) (φ p)

def renamedAll : List Expr → List Expr
  | [] => []
  | e :: es => e.renamed :: renamedAll es

end

@[simp] theorem position_renamed (e : Expr) : (e.renamed ρ φ).position = φ e.position := by
  cases e <;> simp only [renamed, position]

@[simp] theorem length_renamedAll (es : List Expr) : (renamedAll ρ φ es).length = es.length := by
  induction es with
  | nil => rfl
  | cons e es ih => rw [renamedAll, List.length_cons, ih, List.length_cons]

end Expr

namespace Stmt

mutual

def renamed : Stmt → Stmt
  | block body p => block (renamedAll body) (φ p)
  | ifThen condition consequence p =>
      ifThen (condition.renamed ρ φ) consequence.renamed (φ p)
  | print value p => print (value.renamed ρ φ) (φ p)
  | declare x type value p => declare (ρ x) type (value.renamed ρ φ) (φ p)
  | assign x value p => assign (ρ x) (value.renamed ρ φ) (φ p)
  | ret value p => ret (value.renamed ρ φ) (φ p)
  | evaluate value => evaluate (value.renamed ρ φ)

def renamedAll : List Stmt → List Stmt
  | [] => []
  | s :: body => s.renamed :: renamedAll body

end

end Stmt

def Block.renamed (b : Block) : Block := ⟨Stmt.renamedAll ρ φ b.body, φ b.position⟩

def Parameter.renamed (p : Parameter) : Parameter := ⟨ρ p.name, p.type, φ p.position⟩

def Function.renamed (f : Function) : Function :=
  ⟨f.name, f.parameters.map (Parameter.renamed ρ φ), f.returns, f.body.renamed ρ φ, φ f.position⟩

def Program.renamed (p : Program) : Program :=
  ⟨p.functions.map (Function.renamed ρ φ), φ p.position⟩

/-! ### The tree itself -/

namespace Expr

mutual

theorem renamed_id : (e : Expr) → e.renamed id id = e
  | number _ _ | boolean _ _ | var _ _ => by simp only [renamed, id]
  | negate e _ => by simp only [renamed, id, renamed_id e]
  | add l r _ | compare _ l r _ => by simp only [renamed, id, renamed_id l, renamed_id r]
  | call _ args _ => by simp only [renamed, id, renamedAll_id args]

theorem renamedAll_id : (es : List Expr) → renamedAll id id es = es
  | [] => rfl
  | e :: es => by simp only [renamedAll, renamed_id e, renamedAll_id es]

end

end Expr

namespace Stmt

mutual

theorem renamed_id : (s : Stmt) → s.renamed id id = s
  | block body _ => by simp only [renamed, id, renamedAll_id body]
  | ifThen _ consequence _ => by
      simp only [renamed, id, Expr.renamed_id, renamed_id consequence]
  | print _ _ | declare _ _ _ _ | assign _ _ _ | ret _ _ | evaluate _ => by
      simp only [renamed, id, Expr.renamed_id]

theorem renamedAll_id : (body : List Stmt) → renamedAll id id body = body
  | [] => rfl
  | s :: body => by simp only [renamedAll, renamed_id s, renamedAll_id body]

end

end Stmt

theorem Function.renamed_id (f : Function) : f.renamed id id = f := by
  have hparameters : f.parameters.map (Parameter.renamed id id) = f.parameters :=
    List.map_id f.parameters
  simp only [renamed, hparameters, Block.renamed, Stmt.renamedAll_id, id]

/-! ### Trees without positions -/

namespace Expr

mutual

theorem renamed_bare : (e : Expr) → e.renamed id (fun _ => default) = e.bare
  | number _ _ | boolean _ _ | var _ _ => by simp only [renamed, bare, id]
  | negate e _ => by simp only [renamed, bare, renamed_bare e]
  | add l r _ | compare _ l r _ => by simp only [renamed, bare, renamed_bare l, renamed_bare r]
  | call _ args _ => by simp only [renamed, bare, renamedAll_bare args]

theorem renamedAll_bare : (es : List Expr) → renamedAll id (fun _ => default) es = bareAll es
  | [] => rfl
  | e :: es => by simp only [renamedAll, bareAll, renamed_bare e, renamedAll_bare es]

end

end Expr

namespace Stmt

mutual

theorem renamed_bare : (s : Stmt) → s.renamed id (fun _ => default) = s.bare
  | block body _ => by simp only [renamed, bare, renamedAll_bare body]
  | ifThen _ consequence _ => by
      simp only [renamed, bare, Expr.renamed_bare, renamed_bare consequence]
  | print _ _ | declare _ _ _ _ | assign _ _ _ | ret _ _ | evaluate _ => by
      simp only [renamed, bare, Expr.renamed_bare, id]

theorem renamedAll_bare : (body : List Stmt) →
    renamedAll id (fun _ => default) body = bareAll body
  | [] => rfl
  | s :: body => by simp only [renamedAll, bareAll, renamed_bare s, renamedAll_bare body]

end

end Stmt

theorem Program.renamed_bare (p : Program) : p.renamed id (fun _ => default) = p.bare := by
  have hparameter : Parameter.renamed id (fun _ => default) = Parameter.bare := rfl
  have hfunction : Function.renamed id (fun _ => default) = Function.bare := by
    funext f
    simp only [Function.renamed, Function.bare, Block.renamed, hparameter, Stmt.renamedAll_bare]
  rw [Program.renamed, Program.bare, hfunction]

end Octet
