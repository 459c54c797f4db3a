import Octet.Proofs.Grammar.Completeness
import Octet.Proofs.Grammar.Stopping

/-!
Reading two rows of tokens that begin alike. The rows share their tokens up to
one place, where both have a token of the same kind at the same position, and
behind it they may be different. As long as a rule has not read the token of that
place, it does the same on both rows: it succeeds on both with the same value, or
it fails on both with the same error.

The rules look one token ahead of the one they read next, and so they may look
behind the place when they stand at it. They do so only to choose between rules
that all begin with reading that token.
-/

namespace Octet

/-- Where two rows of tokens part: the tokens of that place, and those behind
it. -/
structure Fork where
  left : Token
  right : Token
  behindLeft : List Token
  behindRight : List Token
  kind : right.kind = left.kind
  position : right.position = left.position

/-! ### Cursors in front of the same place -/

namespace Cursor

theorem peek_one_eq (c : Cursor) : c.peek 1 = Grammar.headKind c.tokens.tail := by
  rcases c with ⟨_ | ⟨t, _ | ⟨u, us⟩⟩, last, hlast⟩
  · rfl
  · exact hlast.symm
  · rfl

/-- The two cursors are in front of the place, with the same tokens up to it. -/
def Twin (F : Fork) (c c' : Cursor) : Prop :=
  ∃ front, c.tokens = front ++ F.left :: F.behindLeft ∧
    c'.tokens = front ++ F.right :: F.behindRight

def AtFork (F : Fork) (c : Cursor) : Prop := c.tokens = F.left :: F.behindLeft

namespace Twin

variable {F : Fork} {c c' : Cursor}

theorem kind (h : Twin F c c') : c'.kind = c.kind := by
  obtain ⟨_ | ⟨t, front⟩, hc, hc'⟩ := h <;> rw [Cursor.kind, Cursor.kind, current_of_tokens hc,
    current_of_tokens hc']
  exact F.kind

theorem position (h : Twin F c c') : c'.current.position = c.current.position := by
  obtain ⟨_ | ⟨t, front⟩, hc, hc'⟩ := h <;> rw [current_of_tokens hc, current_of_tokens hc']
  exact F.position

/-- Either both cursors are at the place, or they read the same token next and
then still are in front of it. -/
theorem atFork_or (h : Twin F c c') : c.AtFork F ∨ c'.current = c.current ∧
    c'.peek 1 = c.peek 1 ∧ (c.kind ≠ .eof → Twin F c.advance c'.advance) := by
  have hkind := h.kind
  obtain ⟨_ | ⟨t, front⟩, hc, hc'⟩ := h
  · exact .inl hc
  · refine .inr ⟨by rw [current_of_tokens hc, current_of_tokens hc'], ?_, fun hk => ?_⟩
    · rw [peek_one_eq, peek_one_eq, hc, hc']
      cases front with
      | nil => exact F.kind
      | cons u front => rfl
    · exact ⟨front, advance_tokens hc hk, advance_tokens hc' (by rwa [hkind])⟩

end Twin

end Cursor

/-! ### The same outcome -/

namespace Outcome

open Cursor

variable {α β : Type} {m m' n n' : Nat} {F : Fork}

def Past (F : Fork) (o : Outcome α n) : Prop := o.cursor.tokens.length ≤ F.behindLeft.length

/-- The second rule does what the first one does, unless that has read the token
of the place. -/
inductive Same (F : Fork) : Outcome α n → Outcome α n' → Prop where
  | past {o : Outcome α n} {o' : Outcome α n'} : o.Past F → Same F o o'
  | done {a : α} {c c' : Cursor} {h : c.size < n} {h' : c'.size < n'} : Twin F c c' →
      Same F (.done a c h) (.done a c' h')
  | failed {e : ParseError} {c c' : Cursor} : Twin F c c' → Same F (.failed e c) (.failed e c')

/-- The rule leaves no more tokens than it began with. -/
def Shrinks (c : Cursor) (o : Outcome α n) : Prop := o.cursor.tokens.length ≤ c.tokens.length

theorem Stays.shrinks {c : Cursor} {o : Outcome α n} (h : o.Stays c) : o.Shrinks c := by
  obtain ⟨ts, hts, -⟩ := h.reads
  rw [Shrinks, hts, List.length_append]
  exact Nat.le_add_left _ _

theorem Shrinks.andThen {c : Cursor} {o : Outcome α m} (h : o.Shrinks c)
    {rule : α → (c : Cursor) → c.size < m → Outcome β n}
    (hrule : ∀ a c hc, (rule a c hc).Shrinks c) : (o.andThen rule).Shrinks c := by
  cases o with
  | failed e c' => exact h
  | done a c' hc => exact Nat.le_trans (hrule a c' hc) h

theorem Past.andThen {o : Outcome α m} (h : o.Past F)
    {rule : α → (c : Cursor) → c.size < m → Outcome β n}
    (hrule : ∀ a c hc, (rule a c hc).Shrinks c) : (o.andThen rule).Past F := by
  cases o with
  | failed e c => exact h
  | done a c hc => exact Nat.le_trans (hrule a c hc) h

/-- From cursors in front of the place the two rules do the same. -/
structure Parallel (F : Fork) (rule : (c : Cursor) → c.size < m → Outcome α n)
    (rule' : (c : Cursor) → c.size < m' → Outcome α n') : Prop where
  shrinks : ∀ c h, (rule c h).Shrinks c
  same : ∀ c c' h h', Twin F c c' → Same F (rule c h) (rule' c' h')

theorem Same.andThen {o : Outcome α m} {o' : Outcome α m'} (h : Same F o o')
    {rule : α → (c : Cursor) → c.size < m → Outcome β n}
    {rule' : α → (c : Cursor) → c.size < m' → Outcome β n'}
    (hrule : ∀ a, Parallel F (rule a) (rule' a)) : Same F (o.andThen rule) (o'.andThen rule') := by
  cases h with
  | past h => exact .past (h.andThen fun a => (hrule a).shrinks)
  | done h => exact (hrule _).same _ _ _ _ h
  | failed h => exact .failed h

theorem Same.within {o : Outcome α m} {o' : Outcome α m'} (h : Same F o o') {reached : m < n}
    {reached' : m' < n'} {rule : α → (c : Cursor) → c.size < n → Outcome β n}
    {rule' : α → (c : Cursor) → c.size < n' → Outcome β n'}
    (hrule : ∀ a, Parallel F (rule a) (rule' a)) :
    Same F (o.within reached fun a c h _ => rule a c h)
      (o'.within reached' fun a c h _ => rule' a c h) :=
  h.andThen fun a => ⟨fun c _ => (hrule a).shrinks c _, fun c c' _ _ => (hrule a).same c c' _ _⟩

theorem Parallel.done (a : α) : Parallel F (fun c (h : c.size < n) => .done a c h)
    (fun c (h : c.size < n') => .done a c h) :=
  ⟨fun _ _ => Nat.le_refl _, fun _ _ _ _ h => .done h⟩

theorem Parallel.andThen {x : (c : Cursor) → c.size < n → Outcome α n}
    {x' : (c : Cursor) → c.size < n' → Outcome α n'} (hx : Parallel F x x')
    {rule : α → (c : Cursor) → c.size < n → Outcome β n}
    {rule' : α → (c : Cursor) → c.size < n' → Outcome β n'}
    (hrule : ∀ a, Parallel F (rule a) (rule' a)) :
    Parallel F (fun c h => (x c h).andThen rule) fun c h => (x' c h).andThen rule' :=
  ⟨fun c h => (hx.shrinks c h).andThen fun a => (hrule a).shrinks,
    fun c c' h h' ht => (hx.same c c' h h' ht).andThen hrule⟩

/-- A rule, and then another one inside the same rule. -/
theorem Parallel.within {x : (c : Cursor) → Outcome α c.size} (hstays : ∀ c, (x c).Stays c)
    (hx : ∀ c c', c.size < n → Twin F c c' → Same F (x c) (x c'))
    {rule : α → (c : Cursor) → c.size < n → Outcome β n}
    {rule' : α → (c : Cursor) → c.size < n' → Outcome β n'}
    (hrule : ∀ a, Parallel F (rule a) (rule' a)) :
    Parallel F (fun c h => (x c).within h fun a c₁ h₁ _ => rule a c₁ h₁)
      fun c h => (x c).within h fun a c₁ h₁ _ => rule' a c₁ h₁ :=
  ⟨fun c _ => (hstays c).shrinks.andThen fun a c₁ _ => (hrule a).shrinks c₁ _,
    fun c c' h _ ht => (hx c c' h ht).within hrule⟩

/-- A choice by the token that is read next. -/
theorem Parallel.ite {k : Token.Kind} {x y : (c : Cursor) → c.size < n → Outcome α n}
    {x' y' : (c : Cursor) → c.size < n' → Outcome α n'} (hx : Parallel F x x')
    (hy : Parallel F y y') : Parallel F (fun c h => if c.kind = k then x c h else y c h)
      fun c h => if c.kind = k then x' c h else y' c h where
  shrinks c h := by
    split
    · exact hx.shrinks c h
    · exact hy.shrinks c h
  same c c' h h' ht := by
    rw [ht.kind]
    split
    · exact hx.same c c' h h' ht
    · exact hy.same c c' h h' ht

end Outcome

namespace Grammar

open Outcome Cursor

variable {F : Fork} {c c' : Cursor}

/-! ### Tokens -/

theorem takeAny_same (ks : List Token.Kind) (ht : Twin F c c') :
    Same F (c.takeAny ks) (c'.takeAny ks) := by
  unfold takeAny
  by_cases h : c.kind ∈ ks ∧ c.kind ≠ .eof
  · rw [dif_pos h, dif_pos (by rwa [ht.kind])]
    rcases ht.atFork_or with hc | ⟨hcurrent, -, hadvance⟩
    · exact .past (Nat.le_of_eq (congrArg _ (advance_tokens hc h.2)))
    · rw [hcurrent]
      exact .done (hadvance h.2)
  · rw [dif_neg h, dif_neg (by rwa [ht.kind]), unexpected, unexpected, ht.kind, ht.position]
    exact .failed ht

theorem take_same (k : Token.Kind) (ht : Twin F c c') : Same F (c.take k) (c'.take k) :=
  takeAny_same [k] ht

/-- A token in the middle of a rule. -/
theorem take_parallel {β : Type} {n n' : Nat} {k : Token.Kind}
    {rule : Token → (c : Cursor) → c.size < n → Outcome β n}
    {rule' : Token → (c : Cursor) → c.size < n' → Outcome β n'}
    (hrule : ∀ t, Parallel F (rule t) (rule' t)) :
    Parallel F (fun c h => (c.take k).within h fun t c₁ h₁ _ => rule t c₁ h₁)
      fun c h => (c.take k).within h fun t c₁ h₁ _ => rule' t c₁ h₁ :=
  .within (take_stays k) (fun _ _ _ => take_same k) hrule

theorem take_past {k : Token.Kind} (hc : c.AtFork F) (hk : c.kind = k) (hend : k ≠ .eof) :
    (c.take k).Past F := by
  unfold take takeAny
  rw [dif_pos ⟨by simp [hk], by rwa [hk]⟩]
  exact Nat.le_of_eq (congrArg _ (advance_tokens hc (by rwa [hk])))

/-! ### Expressions -/

theorem number_same (ht : Twin F c c') : Same F (number c) (number c') := by
  unfold number
  refine (take_same .number ht).andThen fun t => ?_
  cases Text.byte? t.value with
  | some value => exact .done _
  | none => exact ⟨fun c₁ _ => Nat.le_refl _, fun _ _ _ _ ht₁ => .failed ht₁⟩

theorem call_past (hc : c.AtFork F) (hk : c.kind = .identifier) :
    (call .standard c).Past F := by
  rw [call]
  refine (take_past hc hk (by decide)).andThen fun callee c₁ h₁ => Stays.shrinks ?_
  refine (take_stays _ c₁).within fun _ c₂ h₂ _ => ?_
  refine (argumentList_stays _ c₂ h₂).andThen fun args c₃ h₃ => ?_
  exact (take_stays _ c₃).within fun _ c₄ h₄ _ => .done

theorem atom_past (hc : c.AtFork F) (hk : c.kind = .identifier) :
    (atom .standard c).Past F := by
  rw [atom, hk]
  show Past F (if c.peek 1 = .leftParen then _ else _)
  split
  · exact call_past hc hk
  · exact (take_past hc hk (by decide)).andThen fun _ _ _ => Nat.le_refl _

theorem expr_past (hc : c.AtFork F) (hk : c.kind = .identifier) :
    (expr .standard c).Past F := by
  have hfactor : (factor .standard c).Past F := by
    rw [factor, hk]
    exact atom_past hc hk
  have haddition : (addition .standard c).Past F := by
    rw [addition]
    refine hfactor.andThen fun left c₁ h₁ => Stays.shrinks ?_
    split
    · refine (take_stays _ c₁).within fun operator c₂ h₂ _ => ?_
      exact (addition_stays _ c₂).within fun right c₃ h₃ _ => .done
    · exact .done
  rw [expr]
  exact haddition.andThen fun left c₁ h₁ => (comparisons_stays _ left c₁ h₁).shrinks

mutual

theorem expr_same {c c' : Cursor} (ht : Twin F c c') :
    Same F (expr .standard c) (expr .standard c') := by
  rw [expr, expr]
  refine (addition_same ht).andThen fun left => ?_
  exact ⟨fun c₁ h₁ => (comparisons_stays _ left c₁ h₁).shrinks,
    fun c₁ c₁' h₁ h₁' ht₁ => comparisons_same left ht₁ h₁ h₁'⟩
termination_by 8 * c.size + 5

theorem comparisons_same (left : Expr) {c c' : Cursor} (ht : Twin F c c') {n n' : Nat}
    (h : c.size < n) (h' : c'.size < n') :
    Same F (comparisons .standard left c h) (comparisons .standard left c' h') := by
  rw [comparisons, comparisons, ht.kind]
  cases comparison? c.kind with
  | none => exact .done ht
  | some comparison =>
      -- What follows the operator is shorter than what it follows, so the steps are taken apart.
      refine (takeAny_same _ ht).andThen fun operator => ⟨fun c₁ h₁ => Stays.shrinks ?_,
        fun c₁ c₁' h₁ h₁' ht₁ => (addition_same ht₁).andThen fun right =>
          ⟨fun c₂ h₂ => (comparisons_stays _ _ c₂ _).shrinks,
            fun c₂ c₂' h₂ h₂' ht₂ => comparisons_same _ ht₂ _ _⟩⟩
      exact (addition_stays _ c₁).within fun right c₂ h₂ _ => comparisons_stays _ _ c₂ h₂
termination_by 8 * c.size

theorem addition_same {c c' : Cursor} (ht : Twin F c c') :
    Same F (addition .standard c) (addition .standard c') := by
  rw [addition, addition]
  refine (factor_same ht).andThen fun left => ?_
  refine .ite (take_parallel fun operator => ?_) (.done left)
  refine .within (addition_stays _) (fun _ _ _ => addition_same) fun right => ?_
  exact .done _
termination_by 8 * c.size + 4

theorem factor_same {c c' : Cursor} (ht : Twin F c c') :
    Same F (factor .standard c) (factor .standard c') := by
  rw [factor, factor, ht.kind]
  cases Dispatch.standard.factor? c.kind with
  | none =>
      rw [unexpected, unexpected, ht.kind, ht.position]
      exact .failed ht
  | some rule =>
      cases rule with
      | unaryPlus => exact unaryPlus_same ht
      | negation => exact negation_same ht
      | grouping => exact grouping_same ht
      | atom => exact atom_same ht
termination_by 8 * c.size + 3

theorem unaryPlus_same {c c' : Cursor} (ht : Twin F c c') :
    Same F (unaryPlus .standard c) (unaryPlus .standard c') := by
  rw [unaryPlus, unaryPlus]
  refine (take_same _ ht).andThen fun _ => ?_
  refine .within (factor_stays _) (fun c₁ _ h₁ => factor_same) fun operand => ?_
  exact .done _
termination_by 8 * c.size + 2

theorem negation_same {c c' : Cursor} (ht : Twin F c c') :
    Same F (negation .standard c) (negation .standard c') := by
  rw [negation, negation]
  refine (take_same _ ht).andThen fun operator => ?_
  refine .within (factor_stays _) (fun _ _ _ => factor_same) fun operand => ?_
  exact .done _
termination_by 8 * c.size + 2

theorem grouping_same {c c' : Cursor} (ht : Twin F c c') :
    Same F (grouping .standard c) (grouping .standard c') := by
  rw [grouping, grouping]
  refine (take_same _ ht).andThen fun _ => ?_
  refine .within (expr_stays _) (fun _ _ _ => expr_same) fun inner => ?_
  refine take_parallel fun _ => ?_
  exact .done _
termination_by 8 * c.size + 2

theorem atom_same {c c' : Cursor} (ht : Twin F c c') :
    Same F (atom .standard c) (atom .standard c') := by
  by_cases hfork : c.AtFork F ∧ c.kind = .identifier
  · exact .past (atom_past hfork.1 hfork.2)
  · have hpeek (hk : c.kind = .identifier) : c'.peek 1 = c.peek 1 := by
      rcases ht.atFork_or with hc | hc
      · exact absurd ⟨hc, hk⟩ hfork
      · exact hc.2.1
    rw [atom, atom, ht.kind]
    split
    · exact number_same ht
    · next hk =>
        rw [hpeek hk]
        split
        · exact call_same ht
        · exact (take_same _ ht).andThen fun _ => .done _
    · exact (take_same _ ht).andThen fun _ => .done _
    · exact (take_same _ ht).andThen fun _ => .done _
    · rw [unexpected, unexpected, ht.kind, ht.position]
      exact .failed ht
termination_by 8 * c.size + 2

theorem call_same {c c' : Cursor} (ht : Twin F c c') :
    Same F (call .standard c) (call .standard c') := by
  rw [call, call]
  refine (take_same _ ht).andThen fun callee => ?_
  refine take_parallel fun _ => ?_
  refine Parallel.andThen ?_ fun args => ?_
  · exact ⟨fun c₁ h₁ => (argumentList_stays _ c₁ h₁).shrinks,
      fun c₁ c₁' h₁ h₁' ht₁ => argumentList_same ht₁ h₁ h₁'⟩
  refine take_parallel fun _ => ?_
  exact .done _
termination_by 8 * c.size + 1

theorem argumentList_same {c c' : Cursor} (ht : Twin F c c') {n n' : Nat} (h : c.size < n)
    (h' : c'.size < n') :
    Same F (argumentList .standard c h) (argumentList .standard c' h') := by
  rw [argumentList, argumentList, ht.kind]
  split
  · exact .done ht
  · exact (arguments_same ht).within fun args => .done _
termination_by 8 * c.size + 7

theorem arguments_same {c c' : Cursor} (ht : Twin F c c') :
    Same F (arguments .standard c) (arguments .standard c') := by
  rw [arguments, arguments]
  refine (expr_same ht).andThen fun first => ?_
  refine .ite (take_parallel fun _ => ?_) (.done _)
  refine .within (arguments_stay _) (fun _ _ _ => arguments_same) fun more => ?_
  exact .done _
termination_by 8 * c.size + 6

end

/-! ### Statements -/

theorem type_same (ht : Twin F c c') : Same F (type c) (type c') := by
  unfold type
  exact (takeAny_same _ ht).andThen fun _ => .done _

section

variable {β : Type} {n n' : Nat}

/-- An expression in the middle of a rule. -/
theorem expr_parallel {rule : Expr → (c : Cursor) → c.size < n → Outcome β n}
    {rule' : Expr → (c : Cursor) → c.size < n' → Outcome β n'}
    (hrule : ∀ e, Parallel F (rule e) (rule' e)) :
    Parallel F (fun c h => (expr .standard c).within h fun e c₁ h₁ _ => rule e c₁ h₁)
      fun c h => (expr .standard c).within h fun e c₁ h₁ _ => rule' e c₁ h₁ :=
  .within (expr_stays _) (fun _ _ _ => expr_same) hrule

/-- A type in the middle of a rule. -/
theorem type_parallel {rule : Ty → (c : Cursor) → c.size < n → Outcome β n}
    {rule' : Ty → (c : Cursor) → c.size < n' → Outcome β n'}
    (hrule : ∀ ty, Parallel F (rule ty) (rule' ty)) :
    Parallel F (fun c h => (type c).within h fun ty c₁ h₁ _ => rule ty c₁ h₁)
      fun c h => (type c).within h fun ty c₁ h₁ _ => rule' ty c₁ h₁ :=
  .within type_stays (fun _ _ _ => type_same) hrule

end

theorem printStmt_same (ht : Twin F c c') :
    Same F (printStmt .standard c) (printStmt .standard c') := by
  unfold printStmt
  refine (take_same _ ht).andThen fun start => ?_
  refine take_parallel fun _ => ?_
  refine expr_parallel fun value => ?_
  refine take_parallel fun _ => ?_
  refine take_parallel fun _ => ?_
  exact .done _

theorem declareStmt_same (ht : Twin F c c') :
    Same F (declareStmt .standard c) (declareStmt .standard c') := by
  unfold declareStmt
  refine (take_same _ ht).andThen fun start => ?_
  refine take_parallel fun name => ?_
  refine take_parallel fun _ => ?_
  refine type_parallel fun ty => ?_
  refine take_parallel fun _ => ?_
  refine expr_parallel fun value => ?_
  refine take_parallel fun _ => ?_
  exact .done _

theorem assignStmt_same (ht : Twin F c c') :
    Same F (assignStmt .standard c) (assignStmt .standard c') := by
  unfold assignStmt
  refine (take_same _ ht).andThen fun name => ?_
  refine take_parallel fun _ => ?_
  refine expr_parallel fun value => ?_
  refine take_parallel fun _ => ?_
  exact .done _

theorem retStmt_same (ht : Twin F c c') :
    Same F (retStmt .standard c) (retStmt .standard c') := by
  unfold retStmt
  refine (take_same _ ht).andThen fun start => ?_
  refine expr_parallel fun value => ?_
  refine take_parallel fun _ => ?_
  exact .done _

theorem evaluateStmt_same (ht : Twin F c c') :
    Same F (evaluateStmt .standard c) (evaluateStmt .standard c') := by
  unfold evaluateStmt
  refine (expr_same ht).andThen fun value => ?_
  refine take_parallel fun _ => ?_
  exact .done _

/-- At the place, a name is read whether it is assigned to or not. -/
theorem stmt_past (hc : c.AtFork F) (hk : c.kind = .identifier) :
    (stmt .standard c).Past F := by
  rw [stmt, hk]
  show Past F (if Token.Kind.identifier = .identifier ∧ c.peek 1 = .assign then _ else _)
  split
  · unfold assignStmt
    refine (take_past hc hk (by decide)).andThen fun name c₁ h₁ => Stays.shrinks ?_
    refine (take_stays _ c₁).within fun _ c₂ h₂ _ => ?_
    refine (expr_stays _ c₂).within fun value c₃ h₃ _ => ?_
    exact (take_stays _ c₃).within fun _ c₄ h₄ _ => .done
  · unfold evaluateStmt
    refine (expr_past hc hk).andThen fun value c₁ h₁ => Stays.shrinks ?_
    exact (take_stays _ c₁).within fun _ c₂ h₂ _ => .done

mutual

theorem stmt_same {c c' : Cursor} (ht : Twin F c c') :
    Same F (stmt .standard c) (stmt .standard c') := by
  by_cases hfork : c.AtFork F ∧ c.kind = .identifier
  · exact .past (stmt_past hfork.1 hfork.2)
  · have hchoice : (c.kind = .identifier ∧ c'.peek 1 = .assign) ↔
        (c.kind = .identifier ∧ c.peek 1 = .assign) := by
      refine and_congr_right fun hk => ?_
      rcases ht.atFork_or with hc | hc
      · exact absurd ⟨hc, hk⟩ hfork
      · rw [hc.2.1]
    rw [stmt, stmt, ht.kind]
    split
    · exact ifStmt_same ht
    · exact printStmt_same ht
    · exact declareStmt_same ht
    · exact retStmt_same ht
    · simp only [hchoice]
      split
      · exact assignStmt_same ht
      · exact evaluateStmt_same ht
termination_by 4 * c.size + 1

theorem ifStmt_same {c c' : Cursor} (ht : Twin F c c') :
    Same F (ifStmt .standard c) (ifStmt .standard c') := by
  rw [ifStmt, ifStmt]
  refine (take_same _ ht).andThen fun start => ?_
  refine expr_parallel fun condition => ?_
  refine take_parallel fun _ => ?_
  refine take_parallel fun _ => ?_
  refine .within (block_stays _) (fun _ _ _ => block_same) fun body => ?_
  exact .done _
termination_by 4 * c.size

theorem block_same {c c' : Cursor} (ht : Twin F c c') :
    Same F (block .standard c) (block .standard c') := by
  rw [block, block]
  refine (take_same _ ht).andThen fun start => Parallel.andThen ?_ fun body => ?_
  · exact ⟨fun c₁ h₁ => (stmts_stay _ c₁ h₁).shrinks,
      fun c₁ c₁' h₁ h₁' ht₁ => stmts_same ht₁ h₁ h₁'⟩
  refine take_parallel fun _ => ?_
  exact .done _
termination_by 4 * c.size

theorem stmts_same {c c' : Cursor} (ht : Twin F c c') {n n' : Nat} (h : c.size < n)
    (h' : c'.size < n') : Same F (stmts .standard c h) (stmts .standard c' h') := by
  rw [stmts, stmts, ht.kind]
  split
  · exact .done ht
  · refine (stmt_same ht).andThen fun first => ⟨fun c₁ h₁ => Stays.shrinks ?_,
      fun c₁ c₁' h₁ h₁' ht₁ => (stmts_same ht₁ _ _).andThen fun more => .done _⟩
    exact (stmts_stay _ c₁ _).andThen fun more c₂ h₂ => .done
termination_by 4 * c.size + 2

end

/-! ### Functions -/

theorem parameters_same {c c' : Cursor} (ht : Twin F c c') :
    Same F (parameters c) (parameters c') := by
  rw [parameters, parameters]
  refine (take_same _ ht).andThen fun name => ?_
  refine take_parallel fun _ => ?_
  refine type_parallel fun ty => ?_
  refine .ite (take_parallel fun _ => ?_) (.done _)
  refine .within parameters_stay (fun _ _ _ => parameters_same) fun more => ?_
  exact .done _
termination_by c.size

theorem parameterList_same (ht : Twin F c c') {n n' : Nat} (h : c.size < n) (h' : c'.size < n') :
    Same F (parameterList c h) (parameterList c' h') := by
  unfold parameterList
  rw [ht.kind]
  split
  · exact .done ht
  · exact (parameters_same ht).within fun ps => .done _

theorem function_same (ht : Twin F c c') :
    Same F (function .standard c) (function .standard c') := by
  unfold function
  refine (take_same _ ht).andThen fun start => ?_
  refine take_parallel fun name => ?_
  refine take_parallel fun _ => ?_
  refine Parallel.andThen ?_ fun ps => ?_
  · exact ⟨fun c₁ h₁ => (parameterList_stays c₁ h₁).shrinks,
      fun c₁ c₁' h₁ h₁' ht₁ => parameterList_same ht₁ h₁ h₁'⟩
  refine take_parallel fun _ => ?_
  refine take_parallel fun _ => ?_
  refine type_parallel fun returns => ?_
  refine take_parallel fun _ => ?_
  refine take_parallel fun _ => ?_
  refine .within (block_stays _) (fun _ _ _ => block_same) fun body => ?_
  exact .done _

/-- Functions are read in the same way from rows that begin alike. -/
theorem functions_same {c c' : Cursor} (ht : Twin F c c') {n n' : Nat} (h : c.size < n)
    (h' : c'.size < n') : Same F (functions .standard c h) (functions .standard c' h') := by
  rw [functions, functions, ht.kind]
  split
  · exact .done ht
  · refine (function_same ht).andThen fun first => ⟨fun c₁ h₁ => Stays.shrinks ?_,
      fun c₁ c₁' h₁ h₁' ht₁ => (functions_same ht₁ _ _).andThen fun more => .done _⟩
    exact (functions_stay _ c₁ _).andThen fun more c₂ h₂ => .done
termination_by c.size

end Grammar

end Octet
