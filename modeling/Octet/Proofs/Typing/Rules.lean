import Octet.Tree.Program

/-!
The type system as rules. They speak of a context of names and not of a
checker that walks through the program: a scope is the function from its names
to their types, a context is a row of scopes, and a rule says which types an
expression has in a context and which context a statement leaves behind.
Nothing is remembered from one function to the next.

The number of a literal has a type of its own, which goes wherever a number
goes. Of the types that a program can write only four exist, since nothing
gives a name to a type.
-/

namespace Octet

/-! ### Types -/

namespace Ty

/-- The types that exist without being declared. -/
def Concrete : Ty → Prop
  | void | u8 | i8 | bool => True
  | literal | named _ | function _ _ => False

inductive Numerical : Ty → Prop where
  | u8 : Numerical .u8
  | i8 : Numerical .i8
  | literal : Numerical .literal

/-- A value of the second type may be stored where one of the first is
wanted. -/
inductive Accepts : Ty → Ty → Prop where
  | same (t : Ty) : Accepts t t
  | literal {t : Ty} : t.Numerical → Accepts t .literal

/-- A variable of the first type may be declared with a value of the second:
any number will do for a number. -/
inductive Initialises : Ty → Ty → Prop where
  | accepted {t s : Ty} : t.Accepts s → Initialises t s
  | number {t s : Ty} : t.Numerical → s.Numerical → Initialises t s

/-- The type of a sum, from the types of the two numbers. -/
inductive Sum : Ty → Ty → Ty → Prop where
  | same {t : Ty} : t.Numerical → Sum t t t
  | literalLeft {t : Ty} : t.Numerical → Sum .literal t t
  | literalRight {t : Ty} : t.Numerical → Sum t .literal t

def IsFunction : Ty → Prop
  | function _ _ => True
  | _ => False

end Ty

/-! ### Contexts -/

/-- The names of a scope and their types. -/
abbrev Names := String → Option Ty

namespace Names

def empty : Names := fun _ => none

/-- One name more, or another type for a name. -/
def bind (names : Names) (x : String) (t : Ty) : Names :=
  fun y => if y = x then some t else names y

/-- The names of things that each have a name and a type. -/
def ofList {α : Type} (name : α → String) (type : α → Ty) (items : List α) : Names :=
  fun x => (items.find? fun a => name a == x).map type

def ofParameters (ps : List Parameter) : Names := ofList Parameter.name Parameter.type ps

def ofFunctions (fs : List Function) : Names := ofList Function.name Function.signature fs

end Names

/-- Scopes inside each other, the innermost one first. -/
abbrev Context := List Names

def Context.type? : Context → String → Option Ty
  | [], _ => none
  | names :: outer, x =>
      match names x with
      | some t => some t
      | none => Context.type? outer x

/-! ### Expressions -/

namespace Expr

mutual

inductive HasType (Γ : Context) : Expr → Ty → Prop where
  | number {n p} : HasType Γ (.number n p) .literal
  | boolean {b p} : HasType Γ (.boolean b p) .bool
  | var {x t p} : Γ.type? x = some t → ¬ t.IsFunction → HasType Γ (.var x p) t
  | negate {e t p} : HasType Γ e t → t.Numerical → HasType Γ (.negate e p) .i8
  | add {l r s t u p} : HasType Γ l s → HasType Γ r t → s.Sum t u → HasType Γ (.add l r p) u
  | compare {c l r s t p} : HasType Γ l s → HasType Γ r t → s.Accepts t ∨ t.Accepts s →
      HasType Γ (.compare c l r p) .bool
  | call {f args parameters returns p} : Γ.type? f = some (.function parameters returns) →
      Fit Γ args parameters → HasType Γ (.call f args p) returns

/-- Arguments, one for each parameter and of a type that it accepts. -/
inductive Fit (Γ : Context) : List Expr → List Ty → Prop where
  | nil : Fit Γ [] []
  | cons {a s args t parameters} : HasType Γ a s → t.Accepts s → Fit Γ args parameters →
      Fit Γ (a :: args) (t :: parameters)

end

end Expr

/-! ### Statements -/

namespace Stmt

mutual

/-- A statement of a function that returns values of type `returns`, with the
contexts in front of it and behind it. -/
inductive Typed (returns : Ty) : Context → Stmt → Context → Prop where
  | block {Γ Γ' body p} : TypedAll returns (Names.empty :: Γ) body Γ' →
      Typed returns Γ (.block body p) Γ
  | ifThen {Γ Γ' condition consequence p} : condition.HasType Γ .bool →
      Typed returns Γ consequence Γ' → Typed returns Γ (.ifThen condition consequence p) Γ'
  | print {Γ value t p} : value.HasType Γ t → Typed returns Γ (.print value p) Γ
  | declare {names Γ x t value s p} : value.HasType (names :: Γ) s → names x = none →
      t.Concrete → t.Initialises s →
      Typed returns (names :: Γ) (.declare x t value p) (names.bind x t :: Γ)
  | assign {Γ x t value s p} : value.HasType Γ s → Γ.type? x = some t → ¬ t.IsFunction →
      t.Accepts s → Typed returns Γ (.assign x value p) Γ
  | ret {Γ value s p} : value.HasType Γ s → returns.Accepts s →
      Typed returns Γ (.ret value p) Γ
  | evaluate {Γ value t} : value.HasType Γ t → Typed returns Γ (.evaluate value) Γ

inductive TypedAll (returns : Ty) : Context → List Stmt → Context → Prop where
  | nil {Γ} : TypedAll returns Γ [] Γ
  | cons {Γ Γ₁ Γ₂ s body} : Typed returns Γ s Γ₁ → TypedAll returns Γ₁ body Γ₂ →
      TypedAll returns Γ (s :: body) Γ₂

end

mutual

/-- A statement that returns a value stands somewhere in this one. -/
def hasReturn : Stmt → Bool
  | block body _ => hasReturnAny body
  | ifThen _ consequence _ => consequence.hasReturn
  | ret _ _ => true
  | print _ _ | declare _ _ _ _ | assign _ _ _ | evaluate _ => false

def hasReturnAny : List Stmt → Bool
  | [] => false
  | s :: body => s.hasReturn || hasReturnAny body

end

end Stmt

/-! ### Functions and programs -/

/-- A function among others whose names are `globals`. The scope of its body
lies in that of its parameters, and that in the scope of all functions. -/
structure Function.Typed (globals : Names) (f : Function) : Prop where
  returns : f.returns.Concrete
  parameters : ∀ p ∈ f.parameters, p.type.Concrete
  distinct : (f.parameters.map Parameter.name).Nodup
  body : ∃ Γ, Stmt.TypedAll f.returns
    [Names.empty, Names.ofParameters f.parameters, globals] f.body.body Γ
  returned : f.returns = .void ∨ Stmt.hasReturnAny f.body.body = true

/-- The program obeys the rules. -/
structure Program.WellTyped (p : Program) : Prop where
  distinct : (p.functions.map Function.name).Nodup
  functions : ∀ f ∈ p.functions, f.Typed (Names.ofFunctions p.functions)

end Octet
