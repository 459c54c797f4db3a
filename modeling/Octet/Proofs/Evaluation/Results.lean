import Octet.Proofs.Evaluation.Basic
import Octet.Proofs.Lowering.Emission
import Octet.Proofs.Result
import Octet.Proofs.Tree.Shape

/-!
Evaluations that give a result. Each kind of expression and statement says what
its parts must have given, so that an evaluation can be taken apart in step
with the code of the same piece.

What remains of a statement in the variables is the shape of the scopes: the
names that it declares are added to the innermost one, and every other scope
keeps its names, whatever happens to the values.
-/

namespace Octet

open Result

variable {V : Type} {I : Interpreter V} {vars vars' : Vars V} {out : Output} {p : Position}

/-! ### Expressions -/

theorem Interpreter.variable_ok {x : String} {a : Var V} (h : I.variable vars x = .ok a) :
    vars.find? x = some a := by
  unfold Interpreter.variable at h
  split at h
  · next b hb => rw [hb, Except.ok.inj h]
  · split at h <;> cases h

namespace Expr

variable {v : V} {out' : Output}

theorem eval_var_ok {x : String} (h : (var x p).eval I vars out = .ok (v, out')) :
    ∃ a, vars.find? x = some a ∧ v = a.value ∧ out' = out := by
  rw [eval] at h
  obtain ⟨a, ha, hr⟩ := bind_ok.mp h
  obtain ⟨rfl, rfl⟩ := Prod.mk.inj (pure_ok.mp hr)
  exact ⟨a, Interpreter.variable_ok ha, rfl, rfl⟩

theorem eval_negate_ok {e : Expr} (h : (negate e p).eval I vars out = .ok (v, out')) :
    ∃ w, e.eval I vars out = .ok (w, out') ∧ I.domain.negate w = .ok v := by
  rw [eval] at h
  obtain ⟨⟨w, out₁⟩, he, h₁⟩ := bind_ok.mp h
  obtain ⟨z, hz, hr⟩ := bind_ok.mp h₁
  obtain ⟨rfl, rfl⟩ := Prod.mk.inj (pure_ok.mp hr)
  exact ⟨w, he, hz⟩

/-- The operands of an operator are evaluated from left to right. -/
theorem operands_ok {l r : Expr} {f : V → V → Except Stop V}
    (h : (do
      let (w, out) ← l.eval I vars out
      let (z, out) ← r.eval I vars out
      return (← f w z, out)) = .ok (v, out')) :
    ∃ w out₁ z, l.eval I vars out = .ok (w, out₁) ∧ r.eval I vars out₁ = .ok (z, out') ∧
      f w z = .ok v := by
  obtain ⟨⟨w, out₁⟩, hl, h₁⟩ := bind_ok.mp h
  obtain ⟨⟨z, out₂⟩, hr, h₂⟩ := bind_ok.mp h₁
  obtain ⟨s, hs, h₃⟩ := bind_ok.mp h₂
  obtain ⟨rfl, rfl⟩ := Prod.mk.inj (pure_ok.mp h₃)
  exact ⟨w, out₁, z, hl, hr, hs⟩

theorem eval_add_ok {l r : Expr} (h : (add l r p).eval I vars out = .ok (v, out')) :
    ∃ w out₁ z, l.eval I vars out = .ok (w, out₁) ∧ r.eval I vars out₁ = .ok (z, out') ∧
      I.domain.add w z = .ok v := by
  rw [eval] at h
  exact operands_ok h

theorem eval_compare_ok {c : Comparison} {l r : Expr}
    (h : (compare c l r p).eval I vars out = .ok (v, out')) :
    ∃ w out₁ z, l.eval I vars out = .ok (w, out₁) ∧ r.eval I vars out₁ = .ok (z, out') ∧
      I.domain.compare c w z = .ok v := by
  rw [eval] at h
  exact operands_ok h

theorem eval_call_ok {f : String} {args : List Expr}
    (h : (call f args p).eval I vars out = .ok (v, out')) :
    ∃ vs out₁, evalAll I vars args out = .ok (vs, out₁) ∧ I.call f vs out₁ = .ok (v, out') := by
  rw [eval] at h
  split at h
  · cases h
  · obtain ⟨⟨vs, out₁⟩, hargs, hcall⟩ := bind_ok.mp h
    exact ⟨vs, out₁, hargs, hcall⟩

theorem evalAll_cons_ok {a : Expr} {args : List Expr} {vs : List V}
    (h : evalAll I vars (a :: args) out = .ok (vs, out')) :
    ∃ v out₁ vs₁, a.eval I vars out = .ok (v, out₁) ∧
      evalAll I vars args out₁ = .ok (vs₁, out') ∧ vs = v :: vs₁ := by
  rw [evalAll] at h
  obtain ⟨⟨v, out₁⟩, ha, h₁⟩ := bind_ok.mp h
  obtain ⟨⟨vs₁, out₂⟩, hargs, h₂⟩ := bind_ok.mp h₁
  obtain ⟨rfl, rfl⟩ := Prod.mk.inj (pure_ok.mp h₂)
  exact ⟨v, out₁, vs₁, ha, hargs, rfl⟩

end Expr

/-! ### Statements -/

namespace Stmt

variable {r : Signal V × Vars V × Output}

theorem exec_block_ok {body : List Stmt} {signal : Signal V} {out' : Output}
    (h : (block body p).exec I vars out = .ok (signal, vars', out')) :
    ∃ vars₁, execAll I body ([] :: vars) out = .ok (signal, vars₁, out') ∧ vars' = vars₁.tail := by
  rw [exec] at h
  obtain ⟨⟨signal₁, vars₁, out₁⟩, hbody, hr⟩ := bind_ok.mp h
  cases pure_ok.mp hr
  exact ⟨vars₁, hbody, rfl⟩

theorem exec_ifThen_ok {condition : Expr} {consequence : Stmt}
    (h : (ifThen condition consequence p).exec I vars out = .ok r) :
    ∃ v out₁ b, condition.eval I vars out = .ok (v, out₁) ∧ I.domain.condition v = .ok b ∧
      (if b then consequence.exec I vars out₁ else .ok (.next, vars, out₁)) = .ok r := by
  rw [exec] at h
  obtain ⟨⟨v, out₁⟩, hv, h₁⟩ := bind_ok.mp h
  obtain ⟨b, hb, hr⟩ := bind_ok.mp h₁
  exact ⟨v, out₁, b, hv, hb, hr⟩

theorem exec_print_ok {value : Expr} (h : (print value p).exec I vars out = .ok r) :
    ∃ v out₁ n, value.eval I vars out = .ok (v, out₁) ∧ I.domain.print v = .ok n ∧
      r = (.next, vars, out₁ ++ [n]) := by
  rw [exec] at h
  obtain ⟨⟨v, out₁⟩, hv, h₁⟩ := bind_ok.mp h
  obtain ⟨n, hn, hr⟩ := bind_ok.mp h₁
  exact ⟨v, out₁, n, hv, hn, (pure_ok.mp hr).symm⟩

theorem exec_declare_ok {x : String} {t : Ty} {value : Expr}
    (h : (declare x t value p).exec I vars out = .ok r) :
    ∃ v out₁ w, value.eval I vars out = .ok (v, out₁) ∧ I.domain.keep t v = .ok w ∧
      r = (.next, vars.declare ⟨x, t, w⟩, out₁) := by
  rw [exec] at h
  obtain ⟨⟨v, out₁⟩, hv, h₁⟩ := bind_ok.mp h
  obtain ⟨w, hw, hr⟩ := bind_ok.mp h₁
  exact ⟨v, out₁, w, hv, hw, (pure_ok.mp hr).symm⟩

theorem exec_assign_ok {x : String} {value : Expr}
    (h : (assign x value p).exec I vars out = .ok r) :
    ∃ v out₁ a w, value.eval I vars out = .ok (v, out₁) ∧ vars.find? x = some a ∧
      I.domain.keep a.type v = .ok w ∧ r = (.next, vars.assign x w, out₁) := by
  rw [exec] at h
  obtain ⟨⟨v, out₁⟩, hv, h₁⟩ := bind_ok.mp h
  obtain ⟨a, ha, h₂⟩ := bind_ok.mp h₁
  obtain ⟨w, hw, hr⟩ := bind_ok.mp h₂
  exact ⟨v, out₁, a, w, hv, Interpreter.variable_ok ha, hw, (pure_ok.mp hr).symm⟩

theorem exec_ret_ok {value : Expr} (h : (ret value p).exec I vars out = .ok r) :
    ∃ v out₁, value.eval I vars out = .ok (v, out₁) ∧ r = (.returned v, vars, out₁) := by
  rw [exec] at h
  obtain ⟨⟨v, out₁⟩, hv, hr⟩ := bind_ok.mp h
  exact ⟨v, out₁, hv, (pure_ok.mp hr).symm⟩

theorem exec_evaluate_ok {value : Expr} (h : (evaluate value).exec I vars out = .ok r) :
    ∃ v out₁, value.eval I vars out = .ok (v, out₁) ∧ r = (.next, vars, out₁) := by
  rw [exec] at h
  obtain ⟨⟨v, out₁⟩, hv, hr⟩ := bind_ok.mp h
  exact ⟨v, out₁, hv, (pure_ok.mp hr).symm⟩

/-- The first of some statements returns, or the others go on behind it. -/
theorem execAll_cons_ok {s : Stmt} {body : List Stmt} (h : execAll I (s :: body) vars out = .ok r) :
    (∃ vars₁ out₁, s.exec I vars out = .ok (.next, vars₁, out₁) ∧
        execAll I body vars₁ out₁ = .ok r) ∨
      ∃ v, s.exec I vars out = .ok r ∧ r.1 = .returned v := by
  rw [execAll] at h
  obtain ⟨⟨signal, vars₁, out₁⟩, hs, h₁⟩ := bind_ok.mp h
  cases signal with
  | next => exact .inl ⟨vars₁, out₁, hs, h₁⟩
  | returned v =>
      obtain rfl := pure_ok.mp h₁
      exact .inr ⟨v, hs, rfl⟩

end Stmt

/-! ### The shape of the scopes -/

def Vars.shape (vars : Vars V) : List (List String) := vars.map fun scope => scope.map Var.name

theorem Vars.names_flatten (vars : Vars V) :
    vars.flatten.map Var.name = vars.shape.flatten := by
  simp [shape, List.map_flatten]

theorem Locals.names_of_assign (x : String) (v : V) (scope : Locals V) :
    (Locals.assign x v scope).map Var.name = scope.map Var.name := by
  induction scope with
  | nil => rfl
  | cons a scope ih =>
      rw [Locals.assign]
      split
      · rfl
      · simp [ih]

theorem Vars.shape_assign (x : String) (v : V) (vars : Vars V) :
    (vars.assign x v).shape = vars.shape := by
  induction vars with
  | nil => rfl
  | cons scope vars ih =>
      rw [Vars.assign]
      split
      · simp [shape, Locals.names_of_assign]
      · simpa [shape] using ih

namespace Stmt

mutual

/-- A statement adds the names that it declares to the innermost scope. -/
theorem exec_shape : (s : Stmt) → s.Shaped → {vars vars' : Vars V} → {out out' : Output} →
    s.exec I vars out = .ok (.next, vars', out') → {scope : List String} →
    {outer : List (List String)} → vars.shape = scope :: outer →
    vars'.shape = (s.declared ++ scope) :: outer
  | block body p, hs, vars, vars', out, out', h, scope, outer, hshape => by
      obtain ⟨vars₁, hbody, hvars⟩ := exec_block_ok h
      have hopened : Vars.shape ([] :: vars) = [] :: scope :: outer := by
        rw [← hshape]
        rfl
      have hbody := execAll_shape body hs hbody hopened
      obtain ⟨inner, rest, rfl⟩ : ∃ inner rest, vars₁ = inner :: rest := by
        cases vars₁ with
        | nil => cases hbody
        | cons inner rest => exact ⟨inner, rest, rfl⟩
      obtain rfl : vars' = rest := hvars
      exact (List.cons.inj hbody).2
  | ifThen condition consequence p, hs, vars, vars', out, out', h, scope, outer, hshape => by
      obtain ⟨v, out₁, b, -, -, hr⟩ := exec_ifThen_ok h
      cases b with
      | true => exact exec_shape consequence hs.2 hr hshape
      | false =>
          obtain ⟨-, rfl, -⟩ : (Signal.next : Signal V) = .next ∧ vars = vars' ∧ out₁ = out' := by
            simpa using hr
          cases consequence with
          | block body q => exact hshape
          | _ => exact hs.1.elim
  | print value p, hs, vars, vars', out, out', h, scope, outer, hshape => by
      obtain ⟨v, out₁, n, -, -, hr⟩ := exec_print_ok h
      cases hr
      exact hshape
  | declare x t value p, hs, vars, vars', out, out', h, scope, outer, hshape => by
      obtain ⟨v, out₁, w, -, -, hr⟩ := exec_declare_ok h
      cases hr
      cases vars with
      | nil => cases hshape
      | cons first rest =>
          obtain ⟨rfl, rfl⟩ := List.cons.inj hshape
          rfl
  | assign x value p, hs, vars, vars', out, out', h, scope, outer, hshape => by
      obtain ⟨v, out₁, a, w, -, -, -, hr⟩ := exec_assign_ok h
      cases hr
      rw [Vars.shape_assign]
      exact hshape
  | ret value p, hs, vars, vars', out, out', h, scope, outer, hshape => by
      obtain ⟨v, out₁, -, hr⟩ := exec_ret_ok h
      cases hr
  | evaluate value, hs, vars, vars', out, out', h, scope, outer, hshape => by
      obtain ⟨v, out₁, -, hr⟩ := exec_evaluate_ok h
      cases hr
      exact hshape

theorem execAll_shape : (body : List Stmt) → ShapedAll body → {vars vars' : Vars V} →
    {out out' : Output} → execAll I body vars out = .ok (.next, vars', out') →
    {scope : List String} → {outer : List (List String)} → vars.shape = scope :: outer →
    vars'.shape = (declaredAll body ++ scope) :: outer
  | [], _, vars, vars', out, out', h, scope, outer, hshape => by
      rw [execAll] at h
      cases h
      exact hshape
  | s :: body, hs, vars, vars', out, out', h, scope, outer, hshape => by
      rcases execAll_cons_ok h with ⟨vars₁, out₁, hfirst, hrest⟩ | ⟨v, -, hreturned⟩
      · have hshape₁ := exec_shape s hs.1 hfirst hshape
        rw [execAll_shape body hs.2 hrest hshape₁, declaredAll, List.append_assoc]
      · cases hreturned

end

/-- Behind the statements of a block its own scope is the innermost one, and the
others have the names that they had. -/
theorem execAll_scope {body : List Stmt} (hshaped : ShapedAll body) {out' : Output}
    (h : execAll I body ([] :: vars) out = .ok (.next, vars', out')) :
    ∃ inner outer, vars' = inner :: outer ∧ inner.length = (declaredAll body).length ∧
      Vars.shape outer = Vars.shape vars := by
  have hshape : Vars.shape vars' = (declaredAll body ++ []) :: Vars.shape vars :=
    execAll_shape body hshaped h rfl
  cases vars' with
  | nil => cases hshape
  | cons inner outer =>
      obtain ⟨hinner, houter⟩ := List.cons.inj hshape
      refine ⟨inner, outer, rfl, ?_, houter⟩
      have hlength := congrArg List.length hinner
      simpa using hlength

end Stmt

end Octet
