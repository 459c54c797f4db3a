import Octet.Typing.Error

/-!
What is known where a piece of a program stands: the variables and the types
with a name, in scopes that lie inside each other. A name means what the
innermost scope that has it says. There is always at least one scope.
-/

namespace Octet

/-! ### Names and their types -/

structure Bindings where
  entries : List (String × Ty)
  deriving Repr

namespace Bindings

def empty : Bindings := ⟨[]⟩

def find? (name : String) (b : Bindings) : Option Ty := b.entries.lookup name

/-- Binds a name, in place of an earlier binding. -/
def insert (name : String) (type : Ty) (b : Bindings) : Bindings :=
  ⟨(name, type) :: b.entries.filter (·.1 ≠ name)⟩

@[simp] theorem find?_empty (name : String) : empty.find? name = none := rfl

@[simp] theorem find?_insert_self (name : String) (type : Ty) (b : Bindings) :
    (b.insert name type).find? name = some type := by
  simp [find?, insert]

theorem find?_insert_of_ne {name other : String} (h : other ≠ name) (type : Ty) (b : Bindings) :
    (b.insert name type).find? other = b.find? other := by
  have hb : (other == name) = false := by simpa using h
  simp only [find?, insert, List.lookup_cons, hb]
  induction b.entries with
  | nil => rfl
  | cons e es ih =>
      obtain ⟨k, t⟩ := e
      by_cases hk : k = name
      · subst hk
        simpa [List.lookup_cons, hb] using ih
      · simp only [ne_eq, decide_not] at ih
        simp [hk, List.lookup_cons, ih]

end Bindings

/-! ### Scopes -/

/-- The names of one block. -/
structure Scope where
  vars : Bindings
  types : Bindings
  deriving Repr

namespace Scope

def empty : Scope := ⟨Bindings.empty, Bindings.empty⟩

def hasVariable (name : String) (s : Scope) : Bool := (s.vars.find? name).isSome

/-- Gives a variable a type, in place of an earlier one. -/
def setVariable (name : String) (type : Ty) (s : Scope) : Scope :=
  { s with vars := s.vars.insert name type }

/-- Declares a variable, whose name the scope must not have yet. -/
def declare (name : String) (type : Ty) (position : Position) (s : Scope) :
    Except TypeError Scope :=
  if s.hasVariable name then .error (.single (.alreadyDefined name) position)
  else .ok (s.setVariable name type)

def setType (name : String) (type : Ty) (s : Scope) : Scope :=
  { s with types := s.types.insert name type }

end Scope

/-! ### Environments -/

/-- Scopes inside each other, the innermost one first. -/
structure Environment where
  current : Scope
  enclosing : List Scope
  deriving Repr

namespace Environment

def empty : Environment := ⟨Scope.empty, []⟩

def scopes (env : Environment) : List Scope := env.current :: env.enclosing

def depth (env : Environment) : Nat := env.enclosing.length + 1

/-- Opens a scope inside the others. -/
def push (scope : Scope) (env : Environment) : Environment := ⟨scope, env.scopes⟩

/-- Closes the innermost scope. The outermost scope stays open. -/
def pop (env : Environment) : Environment :=
  match env.enclosing with
  | [] => env
  | outer :: others => ⟨outer, others⟩

/-- The scope that closing would close. -/
def closing? (env : Environment) : Option Scope :=
  match env.enclosing with
  | [] => none
  | _ :: _ => some env.current

@[simp] theorem pop_push (scope : Scope) (env : Environment) : (env.push scope).pop = env := rfl

/-- The type of the innermost variable of that name. -/
def findVariable? (name : String) (env : Environment) : Option Ty :=
  env.scopes.findSome? fun s => s.vars.find? name

def findType? (name : String) (env : Environment) : Option Ty :=
  env.scopes.findSome? fun s => s.types.find? name

/-- The type of a variable that a program names at a position. -/
def variableType (name : String) (position : Position) (env : Environment) :
    Except TypeError Ty :=
  match env.findVariable? name with
  | some t => .ok t
  | none => .error (.single (.undefinedVariable name) position)

def namedType (name : String) (position : Position) (env : Environment) : Except TypeError Ty :=
  match env.findType? name with
  | some t => .ok t
  | none => .error (.single (.undefinedType (.named name)) position)

/-- The type that is meant by a type in a program: a name stands for the type
that has it, and every other type for itself. -/
def resolve (type : Ty) (position : Position) (env : Environment) : Except TypeError Ty :=
  match type with
  | .named name => env.namedType name position
  | t => .ok t

def setVariable (name : String) (type : Ty) (env : Environment) : Environment :=
  { env with current := env.current.setVariable name type }

/-- Declares a variable in the innermost scope. It may hide those of other
scopes. -/
def declare (name : String) (type : Ty) (position : Position) (env : Environment) :
    Except TypeError Environment := do
  let current ← env.current.declare name type position
  return { env with current }

def setType (name : String) (type : Ty) (env : Environment) : Environment :=
  { env with current := env.current.setType name type }

end Environment

end Octet
