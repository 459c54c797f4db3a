import Octet.Grammar.Cursor

/-!
What comes of applying a rule of the grammar. A rule that succeeds has read at
least one token, and its outcome carries the proof of that: it leaves fewer
tokens than a given bound, which is the number of tokens the rule began with.
This is what makes the rules, which call each other in circles, end. A rule
that fails leaves the cursor at the place where it gave up.
-/

namespace Octet

/-- The outcome of a rule that leaves fewer than `n` tokens when it succeeds. -/
inductive Outcome (α : Type) (n : Nat) where
  | done (value : α) (next : Cursor) (shorter : next.size < n)
  | failed (error : ParseError) (stop : Cursor)

namespace Outcome

variable {α β : Type} {m n : Nat}

/-- Goes on with another rule after a success. -/
def andThen (o : Outcome α m) (rule : α → (c : Cursor) → c.size < m → Outcome β n) :
    Outcome β n :=
  match o with
  | done a c h => rule a c h
  | failed e c => failed e c

/-- Goes on with another rule after a success further on in the same rule,
which is reached with fewer tokens than the rule began with. -/
def within (o : Outcome α m) (reached : m < n)
    (rule : α → (c : Cursor) → c.size < n → c.size < m → Outcome β n) : Outcome β n :=
  o.andThen fun a c h => rule a c (Nat.lt_trans h reached) h

def cursor : Outcome α n → Cursor
  | done _ c _ => c
  | failed _ c => c

/-- The value of a rule that succeeded, or the error of one that failed. -/
def result : Outcome α n → Except ParseError α
  | done a _ _ => .ok a
  | failed e _ => .error e

@[simp] theorem andThen_done (a : α) (c : Cursor) (h : c.size < m)
    (rule : α → (c : Cursor) → c.size < m → Outcome β n) :
    (done a c h).andThen rule = rule a c h := rfl

@[simp] theorem andThen_failed (e : ParseError) (c : Cursor)
    (rule : α → (c : Cursor) → c.size < m → Outcome β n) :
    (failed e c : Outcome α m).andThen rule = failed e c := rfl

@[simp] theorem within_done (a : α) (c : Cursor) (h : c.size < m) (reached : m < n)
    (rule : α → (c : Cursor) → c.size < n → c.size < m → Outcome β n) :
    (done a c h).within reached rule = rule a c (Nat.lt_trans h reached) h := rfl

@[simp] theorem within_failed (e : ParseError) (c : Cursor) (reached : m < n)
    (rule : α → (c : Cursor) → c.size < n → c.size < m → Outcome β n) :
    (failed e c : Outcome α m).within reached rule = failed e c := rfl

end Outcome

namespace Cursor

/-- Reads a token of one of the expected kinds. The kind that ends a text is
never among them: no rule reads past the end. -/
def takeAny (expected : List Token.Kind) (c : Cursor) : Outcome Token c.size :=
  if h : c.kind ∈ expected ∧ c.kind ≠ .eof then
    .done c.current c.advance (size_advance_lt h.2)
  else
    .failed (c.unexpected expected) c

def take (expected : Token.Kind) (c : Cursor) : Outcome Token c.size :=
  c.takeAny [expected]

/-- Unless the end of the text is expected, `expect` reads the same token, or
fails in the same way. -/
theorem expect_eq_takeAny {expected : List Token.Kind} (h : .eof ∉ expected) (c : Cursor) :
    c.expect expected = (c.takeAny expected).result.map (·, (c.takeAny expected).cursor) := by
  unfold expect takeAny
  by_cases hk : c.kind ∈ expected
  · have hne : c.kind ≠ .eof := by
      intro heof
      rw [heof] at hk
      exact h hk
    rw [if_pos hk, dif_pos ⟨hk, hne⟩]
    rfl
  · rw [if_neg hk, dif_neg fun hboth => hk hboth.1]
    rfl

end Cursor

end Octet
