import Octet.Grammar.Program

/-!
The shape of the programs that tokens can make. A tree can hold more than the
grammar ever builds: a condition may govern a statement that is no block, and
a variable may be declared with a type that has no spelling. Neither comes out
of reading, and what is proved about read programs rests on that.

Every rule of the grammar gets one lemma, which says that whatever it reads is
well shaped. `Outcome.Yields` is the form they all have, and it passes through
the two ways in which rules are put together.
-/

namespace Octet

/-! ### Shapes -/

/-- The types that a program can write. The type of a literal and the types of
functions have no spelling. -/
def Ty.Written : Ty → Prop
  | .void | .u8 | .i8 | .bool | .named _ => True
  | .literal | .function _ _ => False

namespace Stmt

def IsBlock : Stmt → Prop
  | block _ _ => True
  | _ => False

mutual

/-- Conditions govern blocks, and declared types are written ones. -/
def Shaped : Stmt → Prop
  | block body _ => ShapedAll body
  | ifThen _ consequence _ => consequence.IsBlock ∧ consequence.Shaped
  | declare _ type _ _ => type.Written
  | print _ _ | assign _ _ _ | ret _ _ | evaluate _ => True

def ShapedAll : List Stmt → Prop
  | [] => True
  | s :: body => s.Shaped ∧ ShapedAll body

end

end Stmt

/-- The header of the function writes its types, and its body is well shaped. -/
structure Function.Shaped (f : Function) : Prop where
  returns : f.returns.Written
  parameters : ∀ p ∈ f.parameters, p.type.Written
  body : Stmt.ShapedAll f.body.body

def Program.Shaped (p : Program) : Prop := ∀ f ∈ p.functions, f.Shaped

/-! ### Rules that yield what they should -/

namespace Outcome

variable {α β : Type} {m n : Nat} {P : α → Prop} {Q : β → Prop}

/-- If the rule succeeds, its value has the property. -/
def Yields (P : α → Prop) : Outcome α n → Prop
  | done a _ _ => P a
  | failed _ _ => True

theorem Yields.andThen {o : Outcome α m} (h : o.Yields P)
    {rule : α → (c : Cursor) → c.size < m → Outcome β n}
    (hrule : ∀ a c h, P a → (rule a c h).Yields Q) : (o.andThen rule).Yields Q := by
  cases o with
  | done a c hc => exact hrule a c hc h
  | failed e c => trivial

theorem Yields.within {o : Outcome α m} (h : o.Yields P) {reached : m < n}
    {rule : α → (c : Cursor) → c.size < n → c.size < m → Outcome β n}
    (hrule : ∀ a c h h', P a → (rule a c h h').Yields Q) :
    (o.within reached rule).Yields Q :=
  h.andThen fun a c hc ha => hrule a c _ hc ha

/-- Nothing is asked of a value that is only read past. -/
theorem yields_any (o : Outcome α n) : o.Yields fun _ => True := by
  cases o <;> trivial

theorem Yields.result {o : Outcome α n} (h : o.Yields P) {a : α} (ha : o.result = .ok a) :
    P a := by
  cases o with
  | done b c hc =>
      obtain rfl : b = a := by simpa [Outcome.result] using ha
      exact h
  | failed e c => simp [Outcome.result] at ha

end Outcome

namespace Grammar

open Outcome

/-! ### The shape of what is read -/

theorem typeOf_written (t : Token) : (typeOf t).Written := by
  unfold typeOf
  split <;> trivial

theorem type_written (c : Cursor) : (type c).Yields Ty.Written :=
  (yields_any _).andThen fun t _ _ _ => typeOf_written t

theorem printStmt_shaped (d : Dispatch) (c : Cursor) : (printStmt d c).Yields Stmt.Shaped := by
  unfold printStmt
  refine (yields_any _).andThen fun _ _ _ _ => ?_
  iterate 4 refine (yields_any _).within fun _ _ _ _ _ => ?_
  trivial

theorem declareStmt_shaped (d : Dispatch) (c : Cursor) :
    (declareStmt d c).Yields Stmt.Shaped := by
  unfold declareStmt
  refine (yields_any _).andThen fun _ _ _ _ => ?_
  iterate 2 refine (yields_any _).within fun _ _ _ _ _ => ?_
  refine (type_written _).within fun ty _ _ _ hty => ?_
  iterate 3 refine (yields_any _).within fun _ _ _ _ _ => ?_
  exact hty

theorem assignStmt_shaped (d : Dispatch) (c : Cursor) : (assignStmt d c).Yields Stmt.Shaped := by
  unfold assignStmt
  refine (yields_any _).andThen fun _ _ _ _ => ?_
  iterate 3 refine (yields_any _).within fun _ _ _ _ _ => ?_
  trivial

theorem retStmt_shaped (d : Dispatch) (c : Cursor) : (retStmt d c).Yields Stmt.Shaped := by
  unfold retStmt
  refine (yields_any _).andThen fun _ _ _ _ => ?_
  iterate 2 refine (yields_any _).within fun _ _ _ _ _ => ?_
  trivial

theorem evaluateStmt_shaped (d : Dispatch) (c : Cursor) :
    (evaluateStmt d c).Yields Stmt.Shaped := by
  unfold evaluateStmt
  refine (yields_any _).andThen fun _ _ _ _ => ?_
  refine (yields_any _).within fun _ _ _ _ _ => ?_
  trivial

mutual

theorem stmt_shaped (d : Dispatch) (c : Cursor) : (stmt d c).Yields Stmt.Shaped := by
  rw [stmt]
  split
  · exact ifStmt_shaped d c
  · exact printStmt_shaped d c
  · exact declareStmt_shaped d c
  · exact retStmt_shaped d c
  · split
    · exact assignStmt_shaped d c
    · exact evaluateStmt_shaped d c
termination_by 4 * c.size + 1

theorem ifStmt_shaped (d : Dispatch) (c : Cursor) : (ifStmt d c).Yields Stmt.Shaped := by
  rw [ifStmt]
  refine (yields_any _).andThen fun _ c₁ h₁ _ => ?_
  refine (yields_any _).within fun _ c₂ h₂ _ _ => ?_
  refine (yields_any _).within fun _ c₃ h₃ _ _ => ?_
  refine (yields_any _).within fun _ c₄ h₄ _ _ => ?_
  exact (block_shaped d c₄).within fun _ _ _ _ hbody => ⟨trivial, hbody⟩
termination_by 4 * c.size

theorem block_shaped (d : Dispatch) (c : Cursor) :
    (block d c).Yields fun b => Stmt.ShapedAll b.body := by
  rw [block]
  refine (yields_any _).andThen fun _ c₁ h₁ _ => ?_
  refine (stmts_shaped d c₁ h₁).andThen fun body _ _ hbody => ?_
  exact (yields_any _).within fun _ _ _ _ _ => hbody
termination_by 4 * c.size

theorem stmts_shaped (d : Dispatch) (c : Cursor) {n : Nat} (h : c.size < n) :
    (stmts d c h).Yields Stmt.ShapedAll := by
  rw [stmts]
  split
  · trivial
  · refine (stmt_shaped d c).within fun first c₁ h₁ h₁' hfirst => ?_
    exact (stmts_shaped d c₁ h₁).andThen fun more _ _ hmore => ⟨hfirst, hmore⟩
termination_by 4 * c.size + 2

end

theorem parameters_written (c : Cursor) :
    (parameters c).Yields fun ps => ∀ p ∈ ps, p.type.Written := by
  rw [parameters]
  refine (yields_any _).andThen fun name c₁ h₁ _ => ?_
  refine (yields_any _).within fun _ c₂ h₂ _ _ => ?_
  refine (type_written _).within fun ty c₃ h₃ _ hty => ?_
  split
  · refine (yields_any _).within fun _ c₄ h₄ _ _ => ?_
    refine (parameters_written c₄).within fun more _ _ _ hmore => ?_
    intro p hp
    rcases List.mem_cons.mp hp with rfl | hp
    · exact hty
    · exact hmore p hp
  · intro p hp
    rw [List.mem_singleton.mp hp]
    exact hty
termination_by c.size

theorem parameterList_written (c : Cursor) {n : Nat} (h : c.size < n) :
    (parameterList c h).Yields fun ps => ∀ p ∈ ps, p.type.Written := by
  unfold parameterList
  split
  · intro p hp
    exact absurd hp List.not_mem_nil
  · exact (parameters_written c).within fun _ _ _ _ hps => hps

theorem function_shaped (d : Dispatch) (c : Cursor) : (function d c).Yields Function.Shaped := by
  unfold function
  refine (yields_any _).andThen fun _ _ _ _ => ?_
  iterate 2 refine (yields_any _).within fun _ _ _ _ _ => ?_
  refine (parameterList_written _ _).andThen fun ps _ _ hps => ?_
  iterate 2 refine (yields_any _).within fun _ _ _ _ _ => ?_
  refine (type_written _).within fun returns _ _ _ hreturns => ?_
  iterate 2 refine (yields_any _).within fun _ _ _ _ _ => ?_
  exact (block_shaped d _).within fun body _ _ _ hbody => ⟨hreturns, hps, hbody⟩

theorem functions_shaped (d : Dispatch) (c : Cursor) {n : Nat} (h : c.size < n) :
    (functions d c h).Yields fun fs => ∀ f ∈ fs, f.Shaped := by
  rw [functions]
  split
  · intro f hf
    exact absurd hf List.not_mem_nil
  · refine (function_shaped d c).within fun first c₁ h₁ h₁' hfirst => ?_
    refine (functions_shaped d c₁ h₁).andThen fun more _ _ hmore => ?_
    intro f hf
    rcases List.mem_cons.mp hf with rfl | hf
    · exact hfirst
    · exact hmore f hf
termination_by c.size

end Grammar

/-- A program that is read from tokens is well shaped. -/
theorem Program.ofTokens_shaped {tokens : List Token} {p : Program}
    (h : Program.ofTokens tokens = .ok p) : p.Shaped := by
  simp only [Program.ofTokens] at h
  cases hr : (Grammar.functions .standard (Cursor.ofTokens tokens).skipLineEnd
      (Nat.lt_succ_self _)).result with
  | error e => simp [hr, Except.map] at h
  | ok fs =>
      simp only [hr, Except.map, Except.ok.injEq] at h
      subst h
      exact (Grammar.functions_shaped _ _ _).result hr

end Octet
