import Mathlib.Data.List.Forall2
import Octet.Proofs.Evaluation.Basic
import Octet.Proofs.Typing.Decision

/-!
Programs that pass the check do not go wrong. They are evaluated over values
that know what they are, and every place that could be given something else
gets stuck on it; the statement is that no place ever is. What remains is that
a call does not end, or that a value which no `return` has given is used, which
the types do not exclude.

An evaluation is followed next to the typing rules. The scopes that it holds
are the context of the rules, read off by `Vars.context`, so that the two agree
by an equation, and the values in them are only asked to fit their types.
-/

namespace Octet

/-! ### Values with a tag -/

/-- A value that knows what it is. -/
inductive Value where
  | byte (value : UInt8)
  | bool (value : Bool)
  /-- The value of a call that ends without returning one. -/
  | undefined
  deriving DecidableEq, Repr

namespace Value

/-- The value may stand where one of the type is wanted. -/
def fits : Value → Ty → Bool
  | byte _, t => t.isNumerical
  | bool _, t => t == .bool
  | undefined, _ => true

def negate : Value → Except Stop Value
  | byte n => .ok (byte (-n))
  | bool _ => .error (.stuck .notNumber)
  | undefined => .error .undefinedUse

def add : Value → Value → Except Stop Value
  | byte m, byte n => .ok (byte (m + n))
  | bool _, _ | _, bool _ => .error (.stuck .notNumber)
  | undefined, _ | _, undefined => .error .undefinedUse

def compare (c : Comparison) : Value → Value → Except Stop Value
  | byte m, byte n => .ok (bool (c.result (m == n)))
  | bool a, bool b => .ok (bool (c.result (a == b)))
  | byte _, bool _ | bool _, byte _ => .error (.stuck .differentTags)
  | undefined, _ | _, undefined => .error .undefinedUse

def condition : Value → Except Stop Bool
  | bool b => .ok b
  | byte _ => .error (.stuck .notBoolean)
  | undefined => .error .undefinedUse

def print : Value → Except Stop UInt8
  | byte n => .ok n
  | bool b => .ok (truth b)
  | undefined => .error .undefinedUse

def keep (t : Ty) (v : Value) : Except Stop Value :=
  if v.fits t then .ok v else .error (.stuck (.wrongTag t))

end Value

/-- Evaluation that gets stuck on a value of the wrong kind. -/
def Domain.tagged : Domain Value where
  number := .byte
  boolean := .bool
  undefined := .undefined
  negate := Value.negate
  add := Value.add
  compare := Value.compare
  condition := Value.condition
  print := Value.print
  keep := Value.keep

/-! ### Evaluations that do not get stuck -/

/-- The evaluation does not get stuck, and a result that it gives has the
property. -/
def Safe {α : Type} (P : α → Prop) : Except Stop α → Prop
  | .ok a => P a
  | .error (.stuck _) => False
  | .error .outOfFuel | .error .undefinedUse => True

namespace Safe

variable {α β : Type} {P : α → Prop} {Q : β → Prop}

theorem bind {x : Except Stop α} (hx : Safe P x) {f : α → Except Stop β}
    (hf : ∀ a, P a → Safe Q (f a)) : Safe Q (x >>= f) := by
  cases x with
  | ok a => exact hf a hx
  | error e => cases e <;> trivial

theorem outcome {x : Except Stop α} (hx : Safe P x) :
    (∃ a, x = .ok a ∧ P a) ∨ x = .error .outOfFuel ∨ x = .error .undefinedUse := by
  cases x with
  | ok a => exact .inl ⟨a, rfl, hx⟩
  | error e =>
      cases e with
      | outOfFuel => exact .inr (.inl rfl)
      | undefinedUse => exact .inr (.inr rfl)
      | stuck reason => exact hx.elim

end Safe

namespace Value

theorem fits_of_accepts {v : Value} {t s : Ty} (h : t.Accepts s) (hv : v.fits s = true) :
    v.fits t = true := by
  cases h with
  | same => exact hv
  | literal ht =>
      cases v with
      | byte n => exact Ty.isNumerical_iff.mpr ht
      | bool b => simp [fits] at hv
      | undefined => rfl

theorem fits_of_numerical {v : Value} {t s : Ty} (ht : t.Numerical) (hs : s.Numerical)
    (hv : v.fits s = true) : v.fits t = true := by
  cases v with
  | byte n => exact Ty.isNumerical_iff.mpr ht
  | bool b => cases hs <;> simp [fits] at hv
  | undefined => rfl

theorem fits_of_initialises {v : Value} {t s : Ty} (h : t.Initialises s)
    (hv : v.fits s = true) : v.fits t = true := by
  cases h with
  | accepted h => exact fits_of_accepts h hv
  | number ht hs => exact fits_of_numerical ht hs hv

theorem safe_keep {v : Value} {t : Ty} (hv : v.fits t = true) :
    Safe (fun w => w.fits t = true) (v.keep t) := by
  rw [keep, if_pos hv]
  exact hv

theorem safe_negate {v : Value} {t : Ty} (ht : t.Numerical) (hv : v.fits t = true) :
    Safe (fun w => w.fits .i8 = true) v.negate := by
  cases v with
  | byte n => rfl
  | bool b => cases ht <;> simp [fits] at hv
  | undefined => trivial

theorem safe_add {v w : Value} {s t u : Ty} (h : s.Sum t u) (hv : v.fits s = true)
    (hw : w.fits t = true) : Safe (fun z => z.fits u = true) (v.add w) := by
  obtain ⟨hs, ht, hu⟩ : s.Numerical ∧ t.Numerical ∧ u.Numerical := by
    cases h with
    | same h => exact ⟨h, h, h⟩
    | literalLeft h => exact ⟨.literal, h, h⟩
    | literalRight h => exact ⟨h, .literal, h⟩
  -- Only a Boolean could get stuck, and a Boolean fits no numerical type.
  have hno : ∀ {b : Bool} {t : Ty}, t.Numerical → (bool b).fits t ≠ true := by
    intro b t ht
    cases ht <;> simp [fits]
  cases v with
  | bool b => exact absurd hv (hno hs)
  | byte m =>
      cases w with
      | byte n => exact Ty.isNumerical_iff.mpr hu
      | bool b => exact absurd hw (hno ht)
      | undefined => trivial
  | undefined =>
      cases w with
      | byte n => trivial
      | bool b => exact absurd hw (hno ht)
      | undefined => trivial

/-- A type that accepts another holds values of no other kind. -/
theorem safe_compare {c : Comparison} {v w : Value} {s t : Ty} (h : s.Accepts t ∨ t.Accepts s)
    (hv : v.fits s = true) (hw : w.fits t = true) :
    Safe (fun z => z.fits .bool = true) (compare c v w) := by
  obtain ⟨r, hv, hw⟩ : ∃ r : Ty, v.fits r = true ∧ w.fits r = true := by
    rcases h with h | h
    · exact ⟨s, hv, fits_of_accepts h hw⟩
    · exact ⟨t, fits_of_accepts h hv, hw⟩
  have hno : ∀ {n : UInt8} {b : Bool}, (byte n).fits r = true → (bool b).fits r ≠ true := by
    intro n b hn hb
    obtain rfl : r = .bool := by simpa [fits] using hb
    simp [fits, Ty.isNumerical] at hn
  cases v with
  | byte m =>
      cases w with
      | byte n => rfl
      | bool b => exact absurd hw (hno hv)
      | undefined => trivial
  | bool a =>
      cases w with
      | byte n => exact absurd hv (hno hw)
      | bool b => rfl
      | undefined => trivial
  | undefined => cases w <;> trivial

theorem safe_condition {v : Value} (hv : v.fits .bool = true) :
    Safe (fun _ => True) v.condition := by
  cases v with
  | byte n => simp [fits, Ty.isNumerical] at hv
  | bool b => trivial
  | undefined => trivial

theorem safe_print (v : Value) : Safe (fun _ => True) v.print := by
  cases v <;> trivial

end Value

/-! ### Variables in their context -/

def Locals.names {V : Type} (scope : Locals V) : Names := Names.ofList Var.name Var.type scope

namespace Vars

/-- The context that variables make inside the scope of the functions. -/
def context {V : Type} (globals : Names) (vars : Vars V) : Context :=
  vars.map Locals.names ++ [globals]

theorem find?_cons {V : Type} (scope : Locals V) (vars : Vars V) (x : String) :
    find? (scope :: vars) x = (scope.find? fun a => a.name == x).or (find? vars x) := by
  simp [find?, List.find?_append]

/-- A name means the innermost variable, or else a function. -/
theorem type?_context {V : Type} (globals : Names) (vars : Vars V) (x : String) :
    (vars.context globals).type? x = ((vars.find? x).map Var.type).or (globals x) := by
  induction vars with
  | nil =>
      show Context.type? [globals] x = globals x
      cases h : globals x <;> simp [Context.type?, h]
  | cons scope vars ih =>
      have hcons : context globals (scope :: vars) =
          Locals.names scope :: context globals vars := rfl
      rw [hcons, Context.type?, find?_cons, ih]
      cases h : scope.find? (fun a => a.name == x) <;>
        simp [Locals.names, Names.ofList, h]

/-- Every variable has a type that exists and a value that fits it. -/
def Sound (vars : Vars Value) : Prop :=
  ∀ a ∈ vars.flatten, a.type.Concrete ∧ a.value.fits a.type = true

theorem mem_of_find? {V : Type} {vars : Vars V} {x : String} {a : Var V}
    (h : vars.find? x = some a) : a ∈ vars.flatten :=
  List.mem_of_find?_eq_some h

theorem Sound.declare {vars : Vars Value} (h : vars.Sound) {a : Var Value}
    (ha : a.type.Concrete ∧ a.value.fits a.type = true) : (vars.declare a).Sound := by
  have hmem : ∀ b ∈ (vars.declare a).flatten, b = a ∨ b ∈ vars.flatten := by
    cases vars with
    | nil => simp [Vars.declare]
    | cons scope outer => simp [Vars.declare]
  intro b hb
  rcases hmem b hb with rfl | hb
  · exact ha
  · exact h b hb

theorem names_assign (x : String) (v : Value) (scope : Locals Value) :
    Locals.names (Locals.assign x v scope) = scope.names := by
  funext y
  simp only [Locals.names, Names.ofList]
  induction scope with
  | nil => rfl
  | cons a scope ih =>
      rw [Locals.assign]
      split
      · by_cases hy : a.name == y <;> simp [hy]
      · by_cases hy : a.name == y <;> simp [hy, ih]

theorem context_assign (globals : Names) (x : String) (v : Value) (vars : Vars Value) :
    (vars.assign x v).context globals = vars.context globals := by
  induction vars with
  | nil => rfl
  | cons scope vars ih =>
      rw [assign]
      split
      · simp [context, names_assign]
      · simpa [context] using ih

/-- What an assignment leaves behind is what was there, or the variable with
its new value. -/
theorem mem_assign {x : String} {v : Value} {scope : Locals Value} {b : Var Value}
    (hb : b ∈ Locals.assign x v scope) :
    b ∈ scope ∨ ∃ a, scope.find? (fun a => a.name == x) = some a ∧ b = { a with value := v } := by
  induction scope with
  | nil => simp [Locals.assign] at hb
  | cons a scope ih =>
      rw [Locals.assign] at hb
      split at hb
      · next hx =>
          rcases List.mem_cons.mp hb with rfl | hb
          · exact .inr ⟨a, by simp [hx], rfl⟩
          · exact .inl (List.mem_cons_of_mem _ hb)
      · next hx =>
          rcases List.mem_cons.mp hb with rfl | hb
          · exact .inl (List.mem_cons_self ..)
          · rcases ih hb with hb | ⟨c, hc, rfl⟩
            · exact .inl (List.mem_cons_of_mem _ hb)
            · exact .inr ⟨c, by simp [hx, hc], rfl⟩

theorem Sound.assign {x : String} {v : Value} : {vars : Vars Value} → vars.Sound →
    {a : Var Value} → vars.find? x = some a → v.fits a.type = true → (vars.assign x v).Sound
  | [], h, _, _, _ => h
  | scope :: vars, h, a, ha, hv => by
      have hscope : ∀ b ∈ scope, b.type.Concrete ∧ b.value.fits b.type = true :=
        fun b hb => h b (by simp [hb])
      have hvars : Sound vars := fun b hb => h b (by
        simp only [List.flatten_cons, List.mem_append]
        exact .inr hb)
      rw [find?_cons] at ha
      rw [Vars.assign]
      intro b hb
      split at hb <;> rw [List.flatten_cons] at hb
      · rcases List.mem_append.mp hb with hb | hb
        · rcases mem_assign hb with hb | ⟨c, hc, rfl⟩
          · exact hscope b hb
          · obtain rfl : c = a := by simpa [hc] using ha
            exact ⟨(hscope c (List.mem_of_find?_eq_some hc)).1, hv⟩
        · exact hvars b hb
      · next hx =>
          have hnone : scope.find? (fun a => a.name == x) = none := by simpa using hx
          rw [hnone, Option.none_or] at ha
          rcases List.mem_append.mp hb with hb | hb
          · exact hscope b hb
          · exact Sound.assign hvars ha hv b hb

end Vars

/-! ### Expressions -/

namespace Interpreter

/-- Calls of functions on arguments that fit are safe, and return what the
functions declare. -/
structure Sound (I : Interpreter Value) (globals : Names) : Prop where
  domain : I.domain = .tagged
  functions : ∀ x t, globals x = some t → t.IsFunction
  call : ∀ name parameters returns args out,
    globals name = some (.function parameters returns) →
    List.Forall₂ (fun v t => v.fits t = true) args parameters →
    Safe (fun r => r.1.fits returns = true) (I.call name args out)

/-- A name whose type is not that of a function is the name of a variable. -/
theorem Sound.variable {I : Interpreter Value} {globals : Names} (hI : I.Sound globals)
    {vars : Vars Value} {x : String} {t : Ty}
    (hx : (vars.context globals).type? x = some t) (ht : ¬ t.IsFunction) :
    ∃ a, vars.find? x = some a ∧ a.type = t ∧ I.variable vars x = .ok a := by
  rw [Vars.type?_context] at hx
  cases ha : vars.find? x with
  | none =>
      rw [ha] at hx
      exact absurd (hI.functions x t hx) ht
  | some a =>
      rw [ha] at hx
      exact ⟨a, rfl, by simpa using hx, by simp [Interpreter.variable, ha]⟩

end Interpreter

/-- A callee is no variable, and so it is a function. -/
theorem Vars.Sound.callee {vars : Vars Value} (hvars : vars.Sound) {globals : Names} {f : String}
    {parameters : List Ty} {returns : Ty}
    (hf : (vars.context globals).type? f = some (.function parameters returns)) :
    vars.find? f = none ∧ globals f = some (.function parameters returns) := by
  rw [Vars.type?_context] at hf
  cases ha : vars.find? f with
  | none => exact ⟨rfl, by simpa [ha] using hf⟩
  | some a =>
      have hconcrete := (hvars a (Vars.mem_of_find? ha)).1
      obtain htype : a.type = _ := by simpa [ha] using hf
      rw [htype] at hconcrete
      exact hconcrete.elim

variable {I : Interpreter Value} {globals : Names}

namespace Expr

mutual

/-- An expression of a type has a value that fits it. -/
theorem safe_eval (hI : I.Sound globals) {vars : Vars Value} (hvars : vars.Sound) :
    (e : Expr) → {t : Ty} →
    (out : Output) → e.HasType (vars.context globals) t →
    Safe (fun r => r.1.fits t = true) (e.eval I vars out)
  | number n p, t, out, h => by
      cases h
      rw [eval, hI.domain]
      rfl
  | boolean b p, t, out, h => by
      cases h
      rw [eval, hI.domain]
      rfl
  | var x p, t, out, h => by
      cases h with
      | var hx ht =>
          obtain ⟨a, ha, rfl, hok⟩ := hI.variable hx ht
          rw [eval, hok]
          exact (hvars a (Vars.mem_of_find? ha)).2
  | negate e p, t, out, h => by
      cases h with
      | negate he ht =>
          rw [eval, hI.domain]
          refine (safe_eval hI hvars e out he).bind fun r hr => ?_
          exact (Value.safe_negate ht hr).bind fun w hw => hw
  | add l r p, t, out, h => by
      cases h with
      | add hl hr hsum =>
          rw [eval, hI.domain]
          refine (safe_eval hI hvars l out hl).bind fun v hv => ?_
          refine (safe_eval hI hvars r v.2 hr).bind fun w hw => ?_
          exact (Value.safe_add hsum hv hw).bind fun z hz => hz
  | compare c l r p, t, out, h => by
      cases h with
      | compare hl hr hsame =>
          rw [eval, hI.domain]
          refine (safe_eval hI hvars l out hl).bind fun v hv => ?_
          refine (safe_eval hI hvars r v.2 hr).bind fun w hw => ?_
          exact (Value.safe_compare hsame hv hw).bind fun z hz => hz
  | call f args p, t, out, h => by
      cases h with
      | call hf hargs =>
          obtain ⟨hnone, hfunction⟩ := hvars.callee hf
          rw [eval, hnone]
          refine (safe_evalAll hI hvars args out hargs).bind fun vs hvs => ?_
          exact hI.call f _ t vs.1 vs.2 hfunction hvs

/-- Arguments that fit have values that fit, one for each parameter. -/
theorem safe_evalAll (hI : I.Sound globals) {vars : Vars Value} (hvars : vars.Sound) :
    (args : List Expr) →
    {parameters : List Ty} → (out : Output) → Fit (vars.context globals) args parameters →
    Safe (fun r => List.Forall₂ (fun v t => v.fits t = true) r.1 parameters)
      (evalAll I vars args out)
  | [], parameters, out, h => by
      cases h
      rw [evalAll]
      exact .nil
  | a :: args, parameters, out, h => by
      cases h with
      | cons ha haccepts hargs =>
          rw [evalAll]
          refine (safe_eval hI hvars a out ha).bind fun v hv => ?_
          refine (safe_evalAll hI hvars args v.2 hargs).bind fun vs hvs => ?_
          exact .cons (Value.fits_of_accepts haccepts hv) hvs

end

end Expr

/-! ### Statements -/

/-- The variables of an open block, in a context. -/
structure Vars.Models (globals : Names) (Γ : Context) (vars : Vars Value) : Prop where
  context : Γ = vars.context globals
  nonempty : vars ≠ []
  sound : vars.Sound

/-- What a statement leaves behind: variables of the context behind it, or a
value that the function may return. -/
def Signal.Models (globals : Names) (returns : Ty) (Γ : Context) :
    Signal Value × Vars Value × Output → Prop
  | (.next, vars, _) => vars.Models globals Γ
  | (.returned v, _, _) => v.fits returns = true

mutual

/-- A statement declares nothing outside the innermost scope. -/
theorem Stmt.Typed.tail_eq {returns : Ty} {Γ Γ' : Context} : {s : Stmt} →
    s.Typed returns Γ Γ' → Γ'.tail = Γ.tail
  | _, .block _ => rfl
  | _, .ifThen _ h => h.tail_eq
  | _, .print _ => rfl
  | _, .declare _ _ _ _ => rfl
  | _, .assign _ _ _ _ => rfl
  | _, .ret _ _ => rfl
  | _, .evaluate _ => rfl

theorem Stmt.TypedAll.tail_eq {returns : Ty} {Γ Γ' : Context} : {body : List Stmt} →
    Stmt.TypedAll returns Γ body Γ' → Γ'.tail = Γ.tail
  | _, .nil => rfl
  | _, .cons h hbody => hbody.tail_eq.trans h.tail_eq

end

/-- The scope of a block can be left when its statements have run. -/
theorem Vars.Models.leave {Γ Γ' : Context} {vars : Vars Value} (h : vars.Models globals Γ')
    (htail : Γ'.tail = Γ) {outer : Vars Value} (houter : outer.Models globals Γ) :
    Vars.Models globals Γ vars.tail := by
  obtain ⟨scope, rest, rfl⟩ := List.exists_cons_of_ne_nil h.nonempty
  have hcontext : Γ = Vars.context globals rest := by
    rw [← htail, h.context]
    rfl
  refine ⟨hcontext, ?_, ?_⟩
  · -- The outer scopes are as many as they were, and one of them is open.
    have hlen := congrArg List.length (hcontext.symm.trans houter.context)
    simp only [Vars.context, List.length_append, List.length_map, Nat.add_right_cancel_iff] at hlen
    have hpos := List.length_pos_iff.mpr houter.nonempty
    exact List.length_pos_iff.mp (by simpa [hlen] using hpos)
  · intro a ha
    rw [List.tail_cons] at ha
    exact h.sound a (List.flatten_cons ▸ List.mem_append.mpr (.inr ha))

namespace Stmt

mutual

/-- A statement that obeys the rules does not get stuck. -/
theorem safe_exec (hI : I.Sound globals) {returns : Ty} {Γ Γ' : Context} :
    (s : Stmt) → s.Shaped → {vars : Vars Value} →
    (out : Output) → vars.Models globals Γ → s.Typed returns Γ Γ' →
    Safe (Signal.Models globals returns Γ') (s.exec I vars out)
  | block body p, hs, vars, out, hvars, h => by
      cases h with
      | block hbody =>
          have hopened : Vars.Models globals (Names.empty :: Γ) ([] :: vars) :=
            ⟨by rw [hvars.context]; rfl, by simp, fun a ha => hvars.sound a (by simpa using ha)⟩
          rw [exec]
          refine (safe_execAll hI body hs out hopened hbody).bind ?_
          rintro ⟨signal, vars', out'⟩ hr
          cases signal with
          | next => exact Vars.Models.leave hr hbody.tail_eq hvars
          | returned v => exact hr
  | ifThen condition consequence p, hs, vars, out, hvars, h => by
      cases h with
      | ifThen hcondition hconsequence =>
          obtain ⟨hblock, hshaped⟩ := hs
          rw [exec, hI.domain]
          have hc := hvars.context ▸ hcondition
          refine (Expr.safe_eval hI hvars.sound _ out hc).bind fun v hv => ?_
          refine (Value.safe_condition hv).bind fun b _ => ?_
          cases b with
          | true => exact safe_exec hI consequence hshaped v.2 hvars hconsequence
          | false =>
              -- A block leaves the context as it was, so it may as well be skipped.
              cases consequence with
              | block body q =>
                  cases hconsequence
                  exact hvars
              | _ => exact hblock.elim
  | print value p, hs, vars, out, hvars, h => by
      cases h with
      | print hvalue =>
          rw [exec, hI.domain]
          have hv := hvars.context ▸ hvalue
          refine (Expr.safe_eval hI hvars.sound _ out hv).bind fun v _ => ?_
          exact (Value.safe_print v.1).bind fun _ _ => hvars
  | declare x t value p, hs, vars, out, hvars, h => by
      cases h with
      | @declare names Γ₀ _ _ _ s _ hvalue hfresh ht hinit =>
          rw [exec, hI.domain]
          have hv := hvars.context ▸ hvalue
          refine (Expr.safe_eval hI hvars.sound _ out hv).bind fun v hv => ?_
          refine (Value.safe_keep (Value.fits_of_initialises hinit hv)).bind fun w hw => ?_
          obtain ⟨scope, outer, rfl⟩ := List.exists_cons_of_ne_nil hvars.nonempty
          obtain ⟨hnames, houter⟩ := List.cons.inj hvars.context
          refine ⟨?_, by simp [Vars.declare], hvars.sound.declare ⟨ht, hw⟩⟩
          show names.bind x t :: Γ₀ = Locals.names (⟨x, t, w⟩ :: scope) ::
            Vars.context globals outer
          rw [houter, hnames]
          congr 1
          funext y
          by_cases hy : y = x
          · simp [Names.bind, Locals.names, Names.ofList, hy]
          · have hne : (x == y) = false := by simpa using fun h => hy h.symm
            simp [Names.bind, Locals.names, Names.ofList, hy, hne]
  | assign x value p, hs, vars, out, hvars, h => by
      cases h with
      | assign hvalue hx ht haccepts =>
          rw [exec, hI.domain]
          have hv := hvars.context ▸ hvalue
          refine (Expr.safe_eval hI hvars.sound _ out hv).bind fun v hv => ?_
          obtain ⟨a, ha, rfl, hok⟩ := hI.variable (hvars.context ▸ hx) ht
          rw [hok]
          refine (Value.safe_keep (Value.fits_of_accepts haccepts hv)).bind fun w hw => ?_
          refine ⟨?_, ?_, hvars.sound.assign ha hw⟩
          · rw [Vars.context_assign]
            exact hvars.context
          · obtain ⟨scope, outer, rfl⟩ := List.exists_cons_of_ne_nil hvars.nonempty
            rw [Vars.assign]
            split <;> simp
  | ret value p, hs, vars, out, hvars, h => by
      cases h with
      | ret hvalue haccepts =>
          rw [exec]
          have hv := hvars.context ▸ hvalue
          refine (Expr.safe_eval hI hvars.sound _ out hv).bind fun v hv => ?_
          exact Value.fits_of_accepts haccepts hv
  | evaluate value, hs, vars, out, hvars, h => by
      cases h with
      | evaluate hvalue =>
          rw [exec]
          have hv := hvars.context ▸ hvalue
          exact (Expr.safe_eval hI hvars.sound _ out hv).bind fun _ _ => hvars

theorem safe_execAll (hI : I.Sound globals) {returns : Ty} {Γ Γ' : Context} :
    (body : List Stmt) → ShapedAll body →
    {vars : Vars Value} → (out : Output) → vars.Models globals Γ →
    TypedAll returns Γ body Γ' →
    Safe (Signal.Models globals returns Γ') (execAll I body vars out)
  | [], _, vars, out, hvars, h => by
      cases h
      rw [execAll]
      exact hvars
  | s :: body, hs, vars, out, hvars, h => by
      cases h with
      | cons h hbody =>
          rw [execAll]
          refine (safe_exec hI s hs.1 out hvars h).bind ?_
          rintro ⟨signal, vars', out'⟩ hr
          cases signal with
          | next => exact safe_execAll hI body hs.2 out' hr hbody
          | returned v => exact hr

end

end Stmt

/-! ### Calls -/

namespace Function

/-- Arguments that fit can be bound, and make the scope of the parameters. -/
theorem safe_bindParameters : (ps : List Parameter) → (∀ p ∈ ps, p.type.Concrete) →
    (ps.map Parameter.name).Nodup → {args : List Value} → {scope : Locals Value} →
    List.Forall₂ (fun v t => v.fits t = true) args (ps.map Parameter.type) →
    Vars.Sound [scope] →
    Safe (fun bound => Vars.Sound [bound] ∧
        bound.names = fun x => (Names.ofParameters ps x).or (scope.names x))
      (bindParameters .tagged ps args scope)
  | [], _, _, args, scope, hargs, hscope => by
      cases hargs
      exact ⟨hscope, rfl⟩
  | p :: ps, hps, hnodup, args, scope, hargs, hscope => by
      obtain ⟨hp, hnodup⟩ := List.nodup_cons.mp hnodup
      cases hargs with
      | @cons v _ vs _ hv hvs =>
          rw [bindParameters]
          refine (Value.safe_keep hv).bind fun w hw => ?_
          have hbound : Vars.Sound [⟨p.name, p.type, w⟩ :: scope] :=
            Vars.Sound.declare hscope ⟨hps p (List.mem_cons_self ..), hw⟩
          have hne : ∀ q ∈ ps, q.name ≠ p.name :=
            fun q hq heq => hp (List.mem_map.mpr ⟨q, hq, heq⟩)
          have hnames : Locals.names (⟨p.name, p.type, w⟩ :: scope) =
              scope.names.bind p.name p.type := by
            funext y
            by_cases hy : y = p.name
            · simp [Names.bind, Locals.names, Names.ofList, hy]
            · have hpy : (p.name == y) = false := by simpa using fun h => hy h.symm
              simp [Names.bind, Locals.names, Names.ofList, hy, hpy]
          have hrest := safe_bindParameters ps (fun q hq => hps q (List.mem_cons_of_mem _ hq))
            hnodup hvs hbound
          rwa [hnames, Names.ofParameters, Names.ofList_cons p ps _ hne] at hrest

/-- A function that obeys its rule returns what it declares, if the functions
that it calls do. -/
theorem safe_run (hI : I.Sound globals) {f : Function} (hf : f.Shaped)
    (htyped : f.Typed globals) {args : List Value}
    (hargs : List.Forall₂ (fun v t => v.fits t = true) args (f.parameters.map Parameter.type))
    (out : Output) : Safe (fun r => r.1.fits f.returns = true) (f.run I args out) := by
  have hempty : Vars.Sound [[]] := by simp [Vars.Sound]
  rw [run, hI.domain]
  refine (safe_bindParameters f.parameters htyped.parameters htyped.distinct hargs hempty).bind ?_
  rintro scope ⟨hsound, hnames⟩
  obtain ⟨Γ, hbody⟩ := htyped.body
  have hscope : Vars.Models globals [Names.ofParameters f.parameters, globals] [scope] := by
    refine ⟨?_, by simp, hsound⟩
    show _ = [Locals.names scope, globals]
    rw [hnames]
    congr 1
    funext x
    exact (Option.or_none ..).symm
  refine (Stmt.safe_exec hI f.body.toStmt hf.body out hscope
    (.block hbody)).bind ?_
  rintro ⟨signal, vars, out'⟩ hr
  cases signal with
  | next => rfl
  | returned v => exact (Value.safe_keep hr).bind fun w hw => hw

end Function

namespace Program

/-- However many calls may be open, calls are safe: an open call counts on
those inside it. -/
theorem sound_interpreter {p : Program} (hp : p.Shaped) (htyped : p.WellTyped) (depth : Nat) :
    (p.interpreter .tagged depth).Sound (Names.ofFunctions p.functions) := by
  refine ⟨rfl, fun _ _ => Names.ofFunctions_isFunction, ?_⟩
  induction depth with
  | zero =>
      intro name parameters returns args out _ _
      trivial
  | succ depth ih =>
      intro name parameters returns args out hname hargs
      obtain ⟨f, hfind, hsignature⟩ := Option.map_eq_some_iff.mp hname
      have hmem := List.mem_of_find?_eq_some hfind
      obtain ⟨rfl, rfl⟩ := Ty.function.inj hsignature
      have hfunction : p.function? name = some f := hfind
      show Safe _ (interpreter.call .tagged p (depth + 1) name args out)
      rw [interpreter.call, hfunction]
      have hI : (p.interpreter .tagged depth).Sound (Names.ofFunctions p.functions) :=
        ⟨rfl, fun _ _ => Names.ofFunctions_isFunction, ih⟩
      exact Function.safe_run hI (hp f hmem) (htyped.functions f hmem) hargs out

/-- Checked programs do not go wrong: a call on arguments that fit returns what
the function declares, unless too many calls are open or a value is used that
no `return` has given. -/
theorem call_never_stuck {tokens : List Token} {p : Program}
    (hread : Program.ofTokens tokens = .ok p) (hcheck : p.typeCheck = .ok ())
    {f : Function} (hf : f ∈ p.functions) {args : List Value}
    (hargs : List.Forall₂ (fun v t => v.fits t = true) args (f.parameters.map Parameter.type))
    (depth : Nat) (out : Output) :
    (∃ r, (p.interpreter .tagged depth).call f.name args out = .ok r ∧
        r.1.fits f.returns = true) ∨
      (p.interpreter .tagged depth).call f.name args out = .error .outOfFuel ∨
      (p.interpreter .tagged depth).call f.name args out = .error .undefinedUse := by
  have hp := ofTokens_shaped hread
  have htyped := hp.typeCheck_iff.mp hcheck
  have hname : Names.ofFunctions p.functions f.name = some f.signature :=
    Names.ofList_of_mem htyped.distinct hf
  exact ((sound_interpreter hp htyped depth).call f.name _ _ args out hname hargs).outcome

/-- The function returns a value on one of its ways only, and its own result is
an operand on the other. -/
theorem call_never_stuck_partial :
    ∃ tokens p, Program.ofTokens tokens = .ok p ∧ p.typeCheck = .ok () ∧
      ((∃ r, (p.interpreter .tagged 9).call "f" [.byte 7, .bool true] [] = .ok r ∧
          r.1.fits .u8 = true) ∨
        (p.interpreter .tagged 9).call "f" [.byte 7, .bool true] [] = .error .outOfFuel ∨
        (p.interpreter .tagged 9).call "f" [.byte 7, .bool true] [] = .error .undefinedUse) := by
  obtain ⟨p, hread, hcheck, htest⟩ := checked_of_test ((Token.scan
    "def f(a: u8, b: bool) -> u8:
    let c: u8 = a
    if b:
        let b: u8 = f(a + 1, a == 255) + c
        print(b)
    if b != true:
        c = 1
        return c
").toOption.getD [])
    (fun p => p.functions.any fun f => f.name == "f" &&
      f.parameters.map Parameter.type == [.u8, .bool] && f.returns == .u8)
    (by decide +kernel)
  obtain ⟨f, hf, htest⟩ := List.any_eq_true.mp htest
  simp only [Bool.and_eq_true, beq_iff_eq] at htest
  obtain ⟨⟨hname, hparameters⟩, hreturns⟩ := htest
  have hargs : List.Forall₂ (fun v t => v.fits t = true) [Value.byte 7, .bool true]
      (f.parameters.map Parameter.type) := by
    rw [hparameters]
    exact .cons rfl (.cons rfl .nil)
  rw [← hname, ← hreturns]
  exact ⟨_, p, hread, hcheck, call_never_stuck hread hcheck hf hargs 9 []⟩

end Program

end Octet
