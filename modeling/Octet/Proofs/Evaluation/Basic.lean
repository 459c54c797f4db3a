import Octet.Lowering.Program

/-!
What programs mean, without a machine. An evaluation takes a program as it is
written: operands and arguments from left to right, a block with a scope of its
own, a call with the scope of its parameters. Its output is the row of bytes
that it has printed.

The values are a parameter. A `Domain` says what the literals and operators do
and what may be kept in a variable, so that the same evaluation serves two
purposes: over bytes it is what compiled code has to reproduce, and over values
that carry a tag it can tell when something is used as what it is not.

Only calls can go on for ever. They are counted down by the number of calls
that may be open at once, and the rest is recursion on the program.
-/

namespace Octet

/-! ### Values -/

/-- What an evaluation must never meet. -/
inductive Stuck where
  | unbound (name : String)
  /-- A function stands where a variable should. -/
  | notVariable (name : String)
  /-- Something that is no function of the program is called. -/
  | notFunction (name : String)
  | wrongCount
  /-- Arithmetic meets something that is no number. -/
  | notNumber
  /-- A comparison meets two values of different kinds. -/
  | differentTags
  | notBoolean
  /-- A value is kept under a type that is not its own. -/
  | wrongTag (type : Ty)
  deriving DecidableEq, Repr

/-- Why an evaluation has no result. -/
inductive Stop where
  /-- More calls are open than there may be. -/
  | outOfFuel
  /-- A value that no `return` has ever given is used. -/
  | undefinedUse
  | stuck (reason : Stuck)
  deriving DecidableEq, Repr

/-- Values and what can be done with them. -/
structure Domain (V : Type) where
  number : UInt8 → V
  boolean : Bool → V
  /-- The value of a call that ends without returning one. -/
  undefined : V
  negate : V → Except Stop V
  add : V → V → Except Stop V
  compare : Comparison → V → V → Except Stop V
  condition : V → Except Stop Bool
  /-- The byte that is printed for a value. -/
  print : V → Except Stop UInt8
  /-- The value as a variable, a parameter or a function of the type has it. -/
  keep : Ty → V → Except Stop V

/-- The result of a comparison, from whether the values are the same. -/
def Comparison.result : Comparison → Bool → Bool
  | equal, same => same
  | notEqual, same => !same

/-- Bytes, of which those that no `return` has given are unknown. An unknown
byte may be thrown away and nothing else. -/
def Domain.bytes : Domain (Option UInt8) where
  number n := some n
  boolean b := some (truth b)
  undefined := none
  negate v := do return some (-(← known v))
  add v w := do return some ((← known v) + (← known w))
  compare c v w := do return some (truth (c.result ((← known v) == (← known w))))
  condition v := do return (← known v) == 1
  print := known
  keep _ v := do return some (← known v)
where
  /-- The byte, if it is known. -/
  known : Option UInt8 → Except Stop UInt8
  | some n => .ok n
  | none => .error .undefinedUse

/-! ### Variables -/

structure Var (V : Type) where
  name : String
  type : Ty
  value : V
  deriving Repr

abbrev Locals (V : Type) := List (Var V)

/-- Scopes inside each other, the innermost first. -/
abbrev Vars (V : Type) := List (Locals V)

variable {V : Type}

def Vars.find? (vars : Vars V) (x : String) : Option (Var V) :=
  vars.flatten.find? fun a => a.name == x

def Vars.declare (a : Var V) : Vars V → Vars V
  | [] => [[a]]
  | scope :: outer => (a :: scope) :: outer

/-- Gives the first variable of a name another value. -/
def Locals.assign (x : String) (v : V) : Locals V → Locals V
  | [] => []
  | a :: scope => if a.name == x then { a with value := v } :: scope else a :: assign x v scope

def Vars.assign (x : String) (v : V) : Vars V → Vars V
  | [] => []
  | scope :: outer =>
      if scope.any (fun a => a.name == x) then Locals.assign x v scope :: outer
      else scope :: assign x v outer

/-! ### Expressions -/

abbrev Output := List UInt8

/-- What an evaluation stands on: the values, the program, and how calls come
out. -/
structure Interpreter (V : Type) where
  domain : Domain V
  program : Program
  call : String → List V → Output → Except Stop (V × Output)

def Program.function? (p : Program) (name : String) : Option Function :=
  p.functions.find? fun f => f.name == name

def Interpreter.variable (I : Interpreter V) (vars : Vars V) (x : String) :
    Except Stop (Var V) :=
  match vars.find? x with
  | some a => .ok a
  | none =>
      if (I.program.function? x).isSome then .error (.stuck (.notVariable x))
      else .error (.stuck (.unbound x))

namespace Expr

mutual

/-- The value of an expression, and the output behind it. -/
def eval (I : Interpreter V) (vars : Vars V) : Expr → Output → Except Stop (V × Output)
  | number n _, out => .ok (I.domain.number n, out)
  | boolean b _, out => .ok (I.domain.boolean b, out)
  | var x _, out => do
      let a ← I.variable vars x
      return (a.value, out)
  | negate e _, out => do
      let (v, out) ← e.eval I vars out
      return (← I.domain.negate v, out)
  | add l r _, out => do
      let (v, out) ← l.eval I vars out
      let (w, out) ← r.eval I vars out
      return (← I.domain.add v w, out)
  | compare c l r _, out => do
      let (v, out) ← l.eval I vars out
      let (w, out) ← r.eval I vars out
      return (← I.domain.compare c v w, out)
  | call f args _, out =>
      if (vars.find? f).isSome then .error (.stuck (.notFunction f))
      else do
        let (vs, out) ← evalAll I vars args out
        I.call f vs out

def evalAll (I : Interpreter V) (vars : Vars V) :
    List Expr → Output → Except Stop (List V × Output)
  | [], out => .ok ([], out)
  | a :: args, out => do
      let (v, out) ← a.eval I vars out
      let (vs, out) ← evalAll I vars args out
      return (v :: vs, out)

end

end Expr

/-! ### Statements -/

inductive Signal (V : Type) where
  | next
  | returned (value : V)
  deriving Repr

namespace Stmt

mutual

def exec (I : Interpreter V) :
    Stmt → Vars V → Output → Except Stop (Signal V × Vars V × Output)
  | block body _, vars, out => do
      let (signal, vars, out) ← execAll I body ([] :: vars) out
      return (signal, vars.tail, out)
  | ifThen condition consequence _, vars, out => do
      let (v, out) ← condition.eval I vars out
      if ← I.domain.condition v then consequence.exec I vars out
      else return (.next, vars, out)
  | print value _, vars, out => do
      let (v, out) ← value.eval I vars out
      let byte ← I.domain.print v
      return (.next, vars, out ++ [byte])
  | declare x type value _, vars, out => do
      let (v, out) ← value.eval I vars out
      let v ← I.domain.keep type v
      return (.next, vars.declare ⟨x, type, v⟩, out)
  | assign x value _, vars, out => do
      let (v, out) ← value.eval I vars out
      let a ← I.variable vars x
      let v ← I.domain.keep a.type v
      return (.next, vars.assign x v, out)
  | ret value _, vars, out => do
      let (v, out) ← value.eval I vars out
      return (.returned v, vars, out)
  | evaluate value, vars, out => do
      let (_, out) ← value.eval I vars out
      return (.next, vars, out)

/-- Runs statements one after the other, up to one that returns. -/
def execAll (I : Interpreter V) :
    List Stmt → Vars V → Output → Except Stop (Signal V × Vars V × Output)
  | [], vars, out => .ok (.next, vars, out)
  | s :: body, vars, out => do
      match ← s.exec I vars out with
      | (.next, vars, out) => execAll I body vars out
      | (.returned v, vars, out) => return (.returned v, vars, out)

end

end Stmt

/-! ### Calls -/

namespace Function

/-- The parameters of a call, in front of those that are bound already. -/
def bindParameters (D : Domain V) :
    List Parameter → List V → Locals V → Except Stop (Locals V)
  | p :: ps, v :: vs, scope => do
      let v ← D.keep p.type v
      bindParameters D ps vs (⟨p.name, p.type, v⟩ :: scope)
  | [], [], scope => .ok scope
  | _, _, _ => .error (.stuck .wrongCount)

def run (I : Interpreter V) (f : Function) (args : List V) (out : Output) :
    Except Stop (V × Output) := do
  let scope ← bindParameters I.domain f.parameters args []
  match ← f.body.toStmt.exec I [scope] out with
  | (.next, _, out) => return (I.domain.undefined, out)
  | (.returned v, _, out) => return (← I.domain.keep f.returns v, out)

end Function

namespace Program

/-- Evaluation with at most `depth` calls open at once. -/
def interpreter (D : Domain V) (p : Program) (depth : Nat) : Interpreter V where
  domain := D
  program := p
  call := call depth
where
  /-- Calls a function of the program. -/
  call : Nat → String → List V → Output → Except Stop (V × Output)
  | 0, _, _, _ => .error .outOfFuel
  | depth + 1, name, args, out =>
      match p.function? name with
      | none => .error (.stuck (.notFunction name))
      | some f => f.run ⟨D, p, call depth⟩ args out

/-- What a program prints: calls `main`, if there is such a function. -/
def evaluate (D : Domain V) (p : Program) (depth : Nat) : Except Stop Output :=
  match p.main? with
  | none => .ok []
  | some _ => do
      let (_, out) ← (p.interpreter D depth).call "main" [] []
      return out

end Program

end Octet
