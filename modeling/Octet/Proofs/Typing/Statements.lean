import Octet.Proofs.Typing.Inference

/-!
Checking a statement and the rule for it. A statement changes the checker's
state, so each direction says what becomes of it: a check that passes follows
the rule of its statement (`Stmt.typed_of_check`), and a statement that obeys
its rule is passed by the check (`Stmt.check_of_typed`). `Checker.Follows` is
what both keep from one statement to the next.
-/

namespace Octet

/-! ### Statements -/

namespace Checker

/-- The checker stands where a statement of a program can be checked. -/
structure Ready (c : Checker) : Prop where
  plain : c.environment.Plain
  firstOrder : c.environment.context.FirstOrder

/-- What a passed check leaves as it was: the scopes around the innermost one,
and the type to be returned. It remembers whether a value was returned. -/
structure Follows (c c' : Checker) (returned : Bool) : Prop where
  ready : c'.Ready
  enclosing : c'.environment.enclosing = c.environment.enclosing
  returnType : c'.returnType = c.returnType
  returned : c'.returned = (c.returned || returned)

theorem Ready.follows {c : Checker} (h : c.Ready) : c.Follows c false :=
  ⟨h, rfl, rfl, by simp⟩

theorem Follows.trans {c c₁ c₂ : Checker} {r₁ r₂ : Bool} (h₁ : c.Follows c₁ r₁)
    (h₂ : c₁.Follows c₂ r₂) : c.Follows c₂ (r₁ || r₂) where
  ready := h₂.ready
  enclosing := by rw [h₂.enclosing, h₁.enclosing]
  returnType := by rw [h₂.returnType, h₁.returnType]
  returned := by rw [h₂.returned, h₁.returned, Bool.or_assoc]

theorem Ready.push {c : Checker} (h : c.Ready) :
    (c.withEnvironment (c.environment.push Scope.empty)).Ready :=
  ⟨h.plain.push, h.firstOrder.empty⟩

/-- Closing a scope that was opened gives back the environment around it. -/
theorem Follows.pop {c c₁ : Checker} {r : Bool}
    (h : (c.withEnvironment (c.environment.push Scope.empty)).Follows c₁ r) :
    c₁.environment.pop = c.environment := by
  have henc : c₁.environment.enclosing = c.environment.scopes := h.enclosing
  unfold Environment.pop
  rw [henc]
  rfl

end Checker

namespace Stmt

open Check Checker

theorem checkDeclare_ok {x : String} {t : Ty} {value : Expr} {p : Position} {u : Unit}
    {c c' : Checker} :
    checkDeclare x t value p c = .ok u c' ↔
      ∃ s t', value.HasType c.environment.context s ∧ c.environment.current.names x = none ∧
        c.environment.resolve t p = .ok t' ∧ t'.Initialises s ∧
        c' = c.withEnvironment (c.environment.setVariable x t') := by
  unfold checkDeclare
  simp only [bind_ok, Check.typeOf, ask_ok, get_ok, unless_ok, unless_end_ok, modify_ok,
    Expr.typeIn_ok, Bool.not_eq_true, Bool.not_eq_true', Environment.hasVariable_eq_false,
    Bool.not_eq_false, Ty.initialisedBy_iff]
  constructor
  · rintro ⟨s, _, ⟨hs, rfl⟩, _, _, ⟨rfl, rfl⟩, hx, t', _, ⟨ht, rfl⟩, _, _, rfl, hi, rfl⟩
    exact ⟨s, t', hs, hx, ht, hi, rfl⟩
  · rintro ⟨s, t', hs, hx, ht, hi, rfl⟩
    exact ⟨s, c, ⟨hs, rfl⟩, c, c, ⟨rfl, rfl⟩, hx, t', c, ⟨ht, rfl⟩, (), _, rfl, hi, rfl⟩

theorem checkAssign_ok {x : String} {value : Expr} {p : Position} {u : Unit} {c c' : Checker} :
    checkAssign x value p c = .ok u c' ↔
      ∃ s t, value.HasType c.environment.context s ∧ c.environment.context.type? x = some t ∧
        t.Accepts s ∧ c' = c := by
  unfold checkAssign
  simp only [bind_ok, Check.typeOf, ask_ok, unless_end_ok, Expr.typeIn_ok,
    Environment.variableType_ok, Bool.not_eq_true', Bool.not_eq_false, Ty.accepts_iff]
  constructor
  · rintro ⟨s, _, ⟨hs, rfl⟩, t, _, ⟨ht, rfl⟩, ha, rfl⟩
    exact ⟨s, t, hs, ht, ha, rfl⟩
  · rintro ⟨s, t, hs, ht, ha, rfl⟩
    exact ⟨s, c', ⟨hs, rfl⟩, t, c', ⟨ht, rfl⟩, ha, rfl⟩

theorem checkRet_ok {value : Expr} {p : Position} {u : Unit} {c c' : Checker} :
    checkRet value p c = .ok u c' ↔
      ∃ s, value.HasType c.environment.context s ∧ c.returnType.Accepts s ∧
        c' = { c with returned := true } := by
  unfold checkRet
  simp only [bind_ok, Check.typeOf, ask_ok, get_ok, unless_ok, modify_ok, Expr.typeIn_ok,
    Bool.not_eq_true', Bool.not_eq_false, Ty.accepts_iff]
  constructor
  · rintro ⟨s, _, ⟨hs, rfl⟩, _, _, ⟨rfl, rfl⟩, ha, rfl⟩
    exact ⟨s, hs, ha, rfl⟩
  · rintro ⟨s, hs, ha, rfl⟩
    exact ⟨s, c, ⟨hs, rfl⟩, c, c, ⟨rfl, rfl⟩, ha, rfl⟩

theorem checkCondition_ok {condition : Expr} {u : Unit} {c c' : Checker} :
    checkCondition condition c = .ok u c' ↔
      condition.HasType c.environment.context .bool ∧ c' = c := by
  unfold checkCondition
  simp only [bind_ok, Check.typeOf, ask_ok, unless_end_ok, Expr.typeIn_ok, ne_eq, Decidable.not_not]
  constructor
  · rintro ⟨s, _, ⟨hs, rfl⟩, rfl, rfl⟩
    exact ⟨hs, rfl⟩
  · rintro ⟨hs, rfl⟩
    exact ⟨.bool, c', ⟨hs, rfl⟩, rfl, rfl⟩

/-- An expression whose value is not looked at. -/
theorem typeOf_only_ok {value : Expr} {u : Unit} {c c' : Checker} :
    (do let _ ← Check.typeOf value : Check Unit) c = .ok u c' ↔
      (∃ t, value.HasType c.environment.context t) ∧ c' = c := by
  simp only [bind_ok, Check.typeOf, ask_ok, pure_ok, Expr.typeIn_ok]
  constructor
  · rintro ⟨t, _, ⟨ht, rfl⟩, -, rfl⟩
    exact ⟨⟨t, ht⟩, rfl⟩
  · rintro ⟨⟨t, ht⟩, rfl⟩
    exact ⟨t, c', ⟨ht, rfl⟩, trivial, rfl⟩

/-- A block passes if its statements do in a scope of their own. -/
theorem check_block_ok {body : List Stmt} {p : Position} {u : Unit} {c c' : Checker} :
    (block body p).check c = .ok u c' ↔
      ∃ c₁, failures body (c.withEnvironment (c.environment.push Scope.empty)) = .ok [] c₁ ∧
        c' = c₁.withEnvironment c₁.environment.pop := by
  rw [check, bind_ok]
  simp only [inScope_ok, combine_ok]
  constructor
  · rintro ⟨_, _, ⟨c₁, h, rfl⟩, rfl, rfl⟩
    exact ⟨c₁, h, rfl⟩
  · rintro ⟨c₁, h, rfl⟩
    exact ⟨[], _, ⟨c₁, h, rfl⟩, rfl, rfl⟩

/-- Statements pass if each of them does, one after the other. -/
theorem failures_cons_ok {s : Stmt} {body : List Stmt} {c c' : Checker} :
    failures (s :: body) c = .ok [] c' ↔
      ∃ c₁, s.check c = .ok () c₁ ∧ failures body c₁ = .ok [] c' := by
  rw [failures]
  simp only [bind_ok, pure_ok]
  constructor
  · rintro ⟨error, c₁, h, errors, c₂, h', hnil, rfl⟩
    obtain ⟨herror, rfl⟩ := List.append_eq_nil_iff.mp hnil.symm
    cases error with
    | none => exact ⟨c₁, failure?_none.mp h, h'⟩
    | some e => simp at herror
  · rintro ⟨c₁, h, h'⟩
    exact ⟨none, c₁, failure?_none.mpr h, [], c', h', rfl, rfl⟩

mutual

/-- A check that passes follows the rule of its statement. -/
theorem typed_of_check : (s : Stmt) → s.Shaped → {c c' : Checker} → {u : Unit} → c.Ready →
    s.check c = .ok u c' →
    s.Typed c.returnType c.environment.context c'.environment.context ∧
      c.Follows c' s.hasReturn
  | block body p, hs, c, c', u, hc, h => by
      obtain ⟨c₁, hbody, rfl⟩ := check_block_ok.mp h
      obtain ⟨htyped, hfollows⟩ := typedAll_of_failures body hs hc.push hbody
      have hpop : c₁.environment.pop = c.environment := hfollows.pop
      rw [hpop]
      exact ⟨.block htyped, ⟨hc.plain, hc.firstOrder⟩, rfl, hfollows.returnType, hfollows.returned⟩
  | ifThen condition consequence p, hs, c, c', u, hc, h => by
      rw [check, bind_ok] at h
      obtain ⟨_, _, hcondition, h⟩ := h
      obtain ⟨hbool, rfl⟩ := checkCondition_ok.mp hcondition
      obtain ⟨htyped, hfollows⟩ := typed_of_check consequence hs.2 hc h
      exact ⟨.ifThen hbool htyped, hfollows⟩
  | print value p, hs, c, c', u, hc, h => by
      obtain ⟨⟨t, ht⟩, rfl⟩ := typeOf_only_ok.mp h
      exact ⟨.print ht, hc.follows⟩
  | declare x t value p, hs, c, c', u, hc, h => by
      obtain ⟨s, t', hvalue, hx, hresolve, hinit, rfl⟩ := checkDeclare_ok.mp h
      obtain ⟨ht, rfl⟩ := (Environment.resolve_ok hc.plain hs).mp hresolve
      simp only [withEnvironment, Environment.context_setVariable]
      rw [Environment.context_cons] at hvalue
      refine ⟨.declare hvalue hx ht hinit, ⟨hc.plain.setVariable x t', ?_⟩, rfl, rfl,
        by simp [hasReturn]⟩
      simp only [Environment.context_setVariable]
      exact Context.FirstOrder.bind hc.firstOrder ht
  | assign x value p, hs, c, c', u, hc, h => by
      obtain ⟨s, t, hvalue, hx, haccepts, rfl⟩ := checkAssign_ok.mp h
      have hf : ¬ t.IsFunction := haccepts.not_function (hvalue.not_function hc.firstOrder)
      exact ⟨.assign hvalue hx hf haccepts, hc.follows⟩
  | ret value p, hs, c, c', u, hc, h => by
      obtain ⟨s, hvalue, haccepts, rfl⟩ := checkRet_ok.mp h
      exact ⟨.ret hvalue haccepts, ⟨hc.plain, hc.firstOrder⟩, rfl, rfl, by simp [hasReturn]⟩
  | evaluate value, hs, c, c', u, hc, h => by
      obtain ⟨⟨t, ht⟩, rfl⟩ := typeOf_only_ok.mp h
      exact ⟨.evaluate ht, hc.follows⟩

theorem typedAll_of_failures : (body : List Stmt) → ShapedAll body → {c c' : Checker} →
    c.Ready → failures body c = .ok [] c' →
    TypedAll c.returnType c.environment.context body c'.environment.context ∧
      c.Follows c' (hasReturnAny body)
  | [], _, c, c', hc, h => by
      obtain ⟨-, rfl⟩ := pure_ok.mp h
      exact ⟨.nil, hc.follows⟩
  | s :: body, hs, c, c', hc, h => by
      obtain ⟨c₁, hfirst, hrest⟩ := failures_cons_ok.mp h
      obtain ⟨htyped, hfollows⟩ := typed_of_check s hs.1 hc hfirst
      obtain ⟨htyped', hfollows'⟩ := typedAll_of_failures body hs.2 hfollows.ready hrest
      rw [hfollows.returnType] at htyped'
      exact ⟨.cons htyped htyped', hfollows.trans hfollows'⟩

end

mutual

/-- A statement that obeys its rule is passed by the check, which leaves the
context of the rule. -/
theorem check_of_typed : (s : Stmt) → s.Shaped → {c : Checker} → {Γ' : Context} → c.Ready →
    s.Typed c.returnType c.environment.context Γ' →
    ∃ c', s.check c = .ok () c' ∧ c'.environment.context = Γ'
  | block body p, hs, c, Γ', hc, h => by
      cases h with
      | block hbody =>
          obtain ⟨c₁, hpass, -⟩ := failures_of_typedAll body hs hc.push hbody
          obtain ⟨-, hfollows⟩ := typedAll_of_failures body hs hc.push hpass
          refine ⟨_, check_block_ok.mpr ⟨c₁, hpass, rfl⟩, ?_⟩
          exact congrArg Environment.context hfollows.pop
  | ifThen condition consequence p, hs, c, Γ', hc, h => by
      cases h with
      | ifThen hbool htyped =>
          obtain ⟨c', hpass, hΓ⟩ := check_of_typed consequence hs.2 hc htyped
          refine ⟨c', ?_, hΓ⟩
          rw [check, bind_ok]
          exact ⟨(), c, checkCondition_ok.mpr ⟨hbool, rfl⟩, hpass⟩
  | print value p, hs, c, Γ', hc, h => by
      cases h with
      | print ht => exact ⟨c, typeOf_only_ok.mpr ⟨⟨_, ht⟩, rfl⟩, rfl⟩
  | declare x t value p, hs, c, Γ', hc, h => by
      rw [Environment.context_cons] at h
      cases h with
      | declare hvalue hx ht hinit =>
          rw [← Environment.context_cons] at hvalue
          exact ⟨_, checkDeclare_ok.mpr ⟨_, t, hvalue, hx,
            (Environment.resolve_ok hc.plain hs).mpr ⟨ht, rfl⟩, hinit, rfl⟩,
            Environment.context_setVariable ..⟩
  | assign x value p, hs, c, Γ', hc, h => by
      cases h with
      | assign hvalue hx _ haccepts =>
          exact ⟨c, checkAssign_ok.mpr ⟨_, _, hvalue, hx, haccepts, rfl⟩, rfl⟩
  | ret value p, hs, c, Γ', hc, h => by
      cases h with
      | ret hvalue haccepts => exact ⟨_, checkRet_ok.mpr ⟨_, hvalue, haccepts, rfl⟩, rfl⟩
  | evaluate value, hs, c, Γ', hc, h => by
      cases h with
      | evaluate ht => exact ⟨c, typeOf_only_ok.mpr ⟨⟨_, ht⟩, rfl⟩, rfl⟩

theorem failures_of_typedAll : (body : List Stmt) → ShapedAll body → {c : Checker} →
    {Γ' : Context} → c.Ready → TypedAll c.returnType c.environment.context body Γ' →
    ∃ c', failures body c = .ok [] c' ∧ c'.environment.context = Γ'
  | [], _, c, Γ', hc, h => by
      cases h with
      | nil => exact ⟨c, pure_ok.mpr ⟨rfl, rfl⟩, rfl⟩
  | s :: body, hs, c, Γ', hc, h => by
      cases h with
      | cons hfirst hrest =>
          obtain ⟨c₁, hpass, rfl⟩ := check_of_typed s hs.1 hc hfirst
          obtain ⟨-, hfollows⟩ := typed_of_check s hs.1 hc hpass
          rw [← hfollows.returnType] at hrest
          obtain ⟨c', hpass', hΓ⟩ := failures_of_typedAll body hs.2 hfollows.ready hrest
          exact ⟨c', failures_cons_ok.mpr ⟨c₁, hpass, hpass'⟩, hΓ⟩

end

end Stmt

/-- The statements of a block are typed in a scope of their own. -/
theorem Stmt.Typed.body_of_block {returns : Ty} {Γ Γ' : Context} {body : List Stmt}
    {p : Position} (h : (Stmt.block body p).Typed returns Γ Γ') :
    ∃ Γ₁, Stmt.TypedAll returns (Names.empty :: Γ) body Γ₁ := by
  cases h with
  | block hbody => exact ⟨_, hbody⟩

end Octet
