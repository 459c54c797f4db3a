import Octet.Proofs.Grammar.Decision

/-!
Where the rules stop. Whether a rule succeeds or fails, it has read some tokens
from the front of its cursor and none of them ends a text; and if it fails, it
blames a token that the cursor held. `Outcome.Stays` says both, and like the
relation between what is read and what it means it passes through the two ways
in which rules are put together. So the error of tokens that make no program is
at one of them.
-/

namespace Octet

namespace Cursor

/-- The tokens from the cursor on, with the one that ends them. -/
def tokens (c : Cursor) : List Token := c.ahead ++ [c.last]

theorem current_mem_tokens (c : Cursor) : c.current ∈ c.tokens := by
  rcases c with ⟨_ | ⟨t, ts⟩, last, hlast⟩
  · exact List.mem_singleton_self last
  · exact List.mem_cons_self ..

theorem tokens_eq_cons {c : Cursor} (h : c.kind ≠ .eof) :
    c.tokens = c.current :: c.advance.tokens := by
  rcases c with ⟨_ | ⟨t, ts⟩, last, hlast⟩
  · exact absurd hlast h
  · rfl

theorem current_of_tokens {c : Cursor} {t : Token} {ts : List Token} (h : c.tokens = t :: ts) :
    c.current = t := by
  rcases c with ⟨_ | ⟨u, us⟩, last, hlast⟩ <;> exact (List.cons.inj h).1

theorem advance_tokens {c : Cursor} {t : Token} {ts : List Token} (h : c.tokens = t :: ts)
    (hk : c.kind ≠ .eof) : c.advance.tokens = ts := by
  rw [tokens_eq_cons hk] at h
  exact (List.cons.inj h).2

end Cursor

/-! ### Rules that stay within their tokens -/

namespace Outcome

open Cursor

variable {α β : Type} {m n : Nat} {c : Cursor}

/-- The rule, applied to the cursor, stays within its tokens. -/
structure Stays (c : Cursor) (o : Outcome α n) : Prop where
  /-- What is left stands behind tokens that end no text. -/
  reads : ∃ ts, c.tokens = ts ++ o.cursor.tokens ∧ ∀ t ∈ ts, t.kind ≠ .eof
  /-- An error is at one of the tokens. -/
  blames : ∀ e, o.result = .error e → ∃ t ∈ c.tokens, t.position = e.position

theorem Stays.done {a : α} {hc : c.size < n} : (Outcome.done a c hc).Stays c where
  reads := ⟨[], rfl, by simp⟩
  blames _ h := by cases h

theorem Stays.unexpected {ks : List Token.Kind} :
    (Outcome.failed (c.unexpected ks) c : Outcome α n).Stays c where
  reads := ⟨[], rfl, by simp⟩
  blames e he := by
    cases he
    exact ⟨c.current, c.current_mem_tokens, rfl⟩

/-- A rule that reads one token may still blame that token. -/
theorem Stays.advance {o : Outcome α n} (h : c.kind ≠ .eof) (hcursor : o.cursor = c.advance)
    (herror : ∀ e, o.result = .error e → e.position = c.current.position) : o.Stays c where
  reads := by
    refine ⟨[c.current], by rw [hcursor, tokens_eq_cons h]; rfl, fun t ht => ?_⟩
    rw [List.mem_singleton.mp ht]
    exact h
  blames e he := ⟨c.current, c.current_mem_tokens, (herror e he).symm⟩

theorem Stays.andThen {o : Outcome α m} (h : o.Stays c)
    {rule : α → (c : Cursor) → c.size < m → Outcome β n}
    (hrule : ∀ a c' hc, (rule a c' hc).Stays c') : (o.andThen rule).Stays c := by
  cases o with
  | failed e c' =>
      refine ⟨h.reads, fun e' he => ?_⟩
      cases he
      exact h.blames e rfl
  | done a c' hc =>
      obtain ⟨ts, hts, hends⟩ := h.reads
      obtain ⟨us, hus, hends'⟩ := (hrule a c' hc).reads
      rw [andThen_done]
      constructor
      · refine ⟨ts ++ us, by rw [hts, cursor, hus, List.append_assoc], fun t ht => ?_⟩
        exact (List.mem_append.mp ht).elim (hends t) (hends' t)
      · intro e he
        obtain ⟨t, ht, hp⟩ := (hrule a c' hc).blames e he
        exact ⟨t, hts ▸ List.mem_append_right ts ht, hp⟩

theorem Stays.within {o : Outcome α m} (h : o.Stays c) {reached : m < n}
    {rule : α → (c : Cursor) → c.size < n → c.size < m → Outcome β n}
    (hrule : ∀ a c' hc hc', (rule a c' hc hc').Stays c') : (o.within reached rule).Stays c :=
  h.andThen fun a c' hc => hrule a c' _ hc

end Outcome

namespace Cursor

open Outcome

theorem takeAny_stays (ks : List Token.Kind) (c : Cursor) : (c.takeAny ks).Stays c := by
  unfold takeAny
  split
  · next h =>
      exact .advance h.2 rfl fun e he => by cases he
  · exact .unexpected

theorem take_stays (k : Token.Kind) (c : Cursor) : (c.take k).Stays c := takeAny_stays [k] c

end Cursor

namespace Grammar

open Outcome Cursor

/-! ### Expressions -/

theorem number_stays (c : Cursor) : (number c).Stays c := by
  unfold number take takeAny
  split
  · next h =>
      rw [andThen_done]
      split
      · exact .advance h.2 rfl fun e he => by cases he
      · exact .advance h.2 rfl fun e he => by cases he; rfl
  · rw [andThen_failed]
    exact .unexpected

mutual

theorem expr_stays (d : Dispatch) (c : Cursor) : (expr d c).Stays c := by
  rw [expr]
  refine (addition_stays d c).andThen fun left c₁ h₁ => ?_
  exact comparisons_stays d left c₁ h₁
termination_by 8 * c.size + 5

theorem comparisons_stays (d : Dispatch) (left : Expr) (c : Cursor) {n : Nat} (h : c.size < n) :
    (comparisons d left c h).Stays c := by
  rw [comparisons]
  split
  · exact .done
  · refine (takeAny_stays _ c).within fun operator c₁ h₁ _ => ?_
    refine (addition_stays d c₁).within fun right c₂ h₂ _ => ?_
    exact comparisons_stays d _ c₂ h₂
termination_by 8 * c.size

theorem addition_stays (d : Dispatch) (c : Cursor) : (addition d c).Stays c := by
  rw [addition]
  refine (factor_stays d c).andThen fun left c₁ h₁ => ?_
  split
  · refine (take_stays _ c₁).within fun operator c₂ h₂ _ => ?_
    exact (addition_stays d c₂).within fun right c₃ h₃ _ => .done
  · exact .done
termination_by 8 * c.size + 4

theorem factor_stays (d : Dispatch) (c : Cursor) : (factor d c).Stays c := by
  rw [factor]
  split
  · exact .unexpected
  · exact unaryPlus_stays d c
  · exact negation_stays d c
  · exact grouping_stays d c
  · exact atom_stays d c
termination_by 8 * c.size + 3

theorem unaryPlus_stays (d : Dispatch) (c : Cursor) : (unaryPlus d c).Stays c := by
  rw [unaryPlus]
  refine (take_stays _ c).andThen fun operator c₁ h₁ => ?_
  exact (factor_stays d c₁).within fun operand c₂ h₂ _ => .done
termination_by 8 * c.size + 2

theorem negation_stays (d : Dispatch) (c : Cursor) : (negation d c).Stays c := by
  rw [negation]
  refine (take_stays _ c).andThen fun operator c₁ h₁ => ?_
  exact (factor_stays d c₁).within fun operand c₂ h₂ _ => .done
termination_by 8 * c.size + 2

theorem grouping_stays (d : Dispatch) (c : Cursor) : (grouping d c).Stays c := by
  rw [grouping]
  refine (take_stays _ c).andThen fun _ c₁ h₁ => ?_
  refine (expr_stays d c₁).within fun inner c₂ h₂ _ => ?_
  exact (take_stays _ c₂).within fun _ c₃ h₃ _ => .done
termination_by 8 * c.size + 2

theorem atom_stays (d : Dispatch) (c : Cursor) : (atom d c).Stays c := by
  rw [atom]
  split
  · exact number_stays c
  · split
    · exact call_stays d c
    · exact (take_stays _ c).andThen fun _ _ _ => .done
  · exact (take_stays _ c).andThen fun _ _ _ => .done
  · exact (take_stays _ c).andThen fun _ _ _ => .done
  · exact .unexpected
termination_by 8 * c.size + 2

theorem call_stays (d : Dispatch) (c : Cursor) : (call d c).Stays c := by
  rw [call]
  refine (take_stays _ c).andThen fun callee c₁ h₁ => ?_
  refine (take_stays _ c₁).within fun _ c₂ h₂ _ => ?_
  refine (argumentList_stays d c₂ h₂).andThen fun args c₃ h₃ => ?_
  exact (take_stays _ c₃).within fun _ c₄ h₄ _ => .done
termination_by 8 * c.size + 1

theorem argumentList_stays (d : Dispatch) (c : Cursor) {n : Nat} (h : c.size < n) :
    (argumentList d c h).Stays c := by
  rw [argumentList]
  split
  · exact .done
  · exact (arguments_stay d c).within fun args c₁ h₁ _ => .done
termination_by 8 * c.size + 7

theorem arguments_stay (d : Dispatch) (c : Cursor) : (arguments d c).Stays c := by
  rw [arguments]
  refine (expr_stays d c).andThen fun first c₁ h₁ => ?_
  split
  · refine (take_stays _ c₁).within fun _ c₂ h₂ _ => ?_
    exact (arguments_stay d c₂).within fun more c₃ h₃ _ => .done
  · exact .done
termination_by 8 * c.size + 6

end

/-! ### Statements -/

theorem type_stays (c : Cursor) : (type c).Stays c := by
  unfold type
  exact (takeAny_stays _ c).andThen fun _ _ _ => .done

theorem printStmt_stays (d : Dispatch) (c : Cursor) : (printStmt d c).Stays c := by
  unfold printStmt
  refine (take_stays _ c).andThen fun start c₁ h₁ => ?_
  refine (take_stays _ c₁).within fun _ c₂ h₂ _ => ?_
  refine (expr_stays d c₂).within fun value c₃ h₃ _ => ?_
  refine (take_stays _ c₃).within fun _ c₄ h₄ _ => ?_
  exact (take_stays _ c₄).within fun _ c₅ h₅ _ => .done

theorem declareStmt_stays (d : Dispatch) (c : Cursor) : (declareStmt d c).Stays c := by
  unfold declareStmt
  refine (take_stays _ c).andThen fun start c₁ h₁ => ?_
  refine (take_stays _ c₁).within fun name c₂ h₂ _ => ?_
  refine (take_stays _ c₂).within fun _ c₃ h₃ _ => ?_
  refine (type_stays c₃).within fun ty c₄ h₄ _ => ?_
  refine (take_stays _ c₄).within fun _ c₅ h₅ _ => ?_
  refine (expr_stays d c₅).within fun value c₆ h₆ _ => ?_
  exact (take_stays _ c₆).within fun _ c₇ h₇ _ => .done

theorem assignStmt_stays (d : Dispatch) (c : Cursor) : (assignStmt d c).Stays c := by
  unfold assignStmt
  refine (take_stays _ c).andThen fun name c₁ h₁ => ?_
  refine (take_stays _ c₁).within fun _ c₂ h₂ _ => ?_
  refine (expr_stays d c₂).within fun value c₃ h₃ _ => ?_
  exact (take_stays _ c₃).within fun _ c₄ h₄ _ => .done

theorem retStmt_stays (d : Dispatch) (c : Cursor) : (retStmt d c).Stays c := by
  unfold retStmt
  refine (take_stays _ c).andThen fun start c₁ h₁ => ?_
  refine (expr_stays d c₁).within fun value c₂ h₂ _ => ?_
  exact (take_stays _ c₂).within fun _ c₃ h₃ _ => .done

theorem evaluateStmt_stays (d : Dispatch) (c : Cursor) : (evaluateStmt d c).Stays c := by
  unfold evaluateStmt
  refine (expr_stays d c).andThen fun value c₁ h₁ => ?_
  exact (take_stays _ c₁).within fun _ c₂ h₂ _ => .done

mutual

theorem stmt_stays (d : Dispatch) (c : Cursor) : (stmt d c).Stays c := by
  rw [stmt]
  split
  · exact ifStmt_stays d c
  · exact printStmt_stays d c
  · exact declareStmt_stays d c
  · exact retStmt_stays d c
  · split
    · exact assignStmt_stays d c
    · exact evaluateStmt_stays d c
termination_by 4 * c.size + 1

theorem ifStmt_stays (d : Dispatch) (c : Cursor) : (ifStmt d c).Stays c := by
  rw [ifStmt]
  refine (take_stays _ c).andThen fun start c₁ h₁ => ?_
  refine (expr_stays d c₁).within fun condition c₂ h₂ _ => ?_
  refine (take_stays _ c₂).within fun _ c₃ h₃ _ => ?_
  refine (take_stays _ c₃).within fun _ c₄ h₄ _ => ?_
  exact (block_stays d c₄).within fun body c₅ h₅ _ => .done
termination_by 4 * c.size

theorem block_stays (d : Dispatch) (c : Cursor) : (block d c).Stays c := by
  rw [block]
  refine (take_stays _ c).andThen fun start c₁ h₁ => ?_
  refine (stmts_stay d c₁ h₁).andThen fun body c₂ h₂ => ?_
  exact (take_stays _ c₂).within fun _ c₃ h₃ _ => .done
termination_by 4 * c.size

theorem stmts_stay (d : Dispatch) (c : Cursor) {n : Nat} (h : c.size < n) :
    (stmts d c h).Stays c := by
  rw [stmts]
  split
  · exact .done
  · refine (stmt_stays d c).within fun first c₁ h₁ h₁' => ?_
    exact (stmts_stay d c₁ h₁).andThen fun more c₂ h₂ => .done
termination_by 4 * c.size + 2

end

/-! ### Functions -/

theorem parameters_stay (c : Cursor) : (parameters c).Stays c := by
  rw [parameters]
  refine (take_stays _ c).andThen fun name c₁ h₁ => ?_
  refine (take_stays _ c₁).within fun _ c₂ h₂ _ => ?_
  refine (type_stays c₂).within fun ty c₃ h₃ _ => ?_
  split
  · refine (take_stays _ c₃).within fun _ c₄ h₄ _ => ?_
    exact (parameters_stay c₄).within fun more c₅ h₅ _ => .done
  · exact .done
termination_by c.size

theorem parameterList_stays (c : Cursor) {n : Nat} (h : c.size < n) :
    (parameterList c h).Stays c := by
  unfold parameterList
  split
  · exact .done
  · exact (parameters_stay c).within fun ps c₁ h₁ _ => .done

theorem function_stays (d : Dispatch) (c : Cursor) : (function d c).Stays c := by
  unfold function
  refine (take_stays _ c).andThen fun start c₁ h₁ => ?_
  refine (take_stays _ c₁).within fun name c₂ h₂ _ => ?_
  refine (take_stays _ c₂).within fun _ c₃ h₃ _ => ?_
  refine (parameterList_stays c₃ h₃).andThen fun ps c₄ h₄ => ?_
  refine (take_stays _ c₄).within fun _ c₅ h₅ _ => ?_
  refine (take_stays _ c₅).within fun _ c₆ h₆ _ => ?_
  refine (type_stays c₆).within fun returns c₇ h₇ _ => ?_
  refine (take_stays _ c₇).within fun _ c₈ h₈ _ => ?_
  refine (take_stays _ c₈).within fun _ c₉ h₉ _ => ?_
  exact (block_stays d c₉).within fun body c₁₀ h₁₀ _ => .done

theorem functions_stay (d : Dispatch) (c : Cursor) {n : Nat} (h : c.size < n) :
    (functions d c h).Stays c := by
  rw [functions]
  split
  · exact .done
  · refine (function_stays d c).within fun first c₁ h₁ h₁' => ?_
    exact (functions_stay d c₁ h₁).andThen fun more c₂ h₂ => .done
termination_by c.size

end Grammar

/-! ### Programs -/

theorem Cursor.mem_tokens_of_skipLineEnd {c : Cursor} {t : Token}
    (h : t ∈ c.skipLineEnd.tokens) : t ∈ c.tokens := by
  unfold skipLineEnd at h
  split at h
  · next hk =>
      rw [tokens_eq_cons (by simp [hk])]
      exact List.mem_cons_of_mem _ h
  · exact h

/-- Tokens that make no program are wrong at one of them, or at the end that
they lack. -/
theorem Program.ofTokens_error {tokens : List Token} {e : ParseError}
    (h : ofTokens tokens = .error e) :
    ∃ t ∈ Grammar.withEnd tokens, t.position = e.position := by
  obtain ⟨t, ht, hp⟩ := (Grammar.functions_stay .standard (Cursor.ofTokens tokens).skipLineEnd
    (Nat.lt_succ_self _)).blames e (Result.map_error.mp h)
  exact ⟨t, Grammar.ofTokens_append_last tokens ▸ Cursor.mem_tokens_of_skipLineEnd ht, hp⟩

end Octet
