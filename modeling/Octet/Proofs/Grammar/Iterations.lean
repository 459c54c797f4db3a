import Octet.Proofs.Grammar.Stopping

/-!
The iterations of the rules that repeat something: comparisons, arguments, statements,
parameters and functions. For every rule the cursors are listed at which it begins an
iteration, its own and those of the rules that it uses. They are different places in
the order of the tokens, because an iteration that succeeds has read a token and
because a rule that repeats nothing reads one before it comes to any iteration. So
there are no more iterations than tokens, those of all rules together.
-/

namespace Octet

/-! ### Places further on -/

namespace Cursor

/-- Between the two cursors no token ends a text. -/
def Reaches (c c' : Cursor) : Prop :=
  ∃ ts, c.tokens = ts ++ c'.tokens ∧ ∀ t ∈ ts, t.kind ≠ .eof

namespace Reaches

variable {c c₁ c₂ : Cursor}

theorem refl (c : Cursor) : c.Reaches c := ⟨[], rfl, nofun⟩

theorem trans (h : c.Reaches c₁) (h' : c₁.Reaches c₂) : c.Reaches c₂ := by
  obtain ⟨ts, hts, hends⟩ := h
  obtain ⟨us, hus, hends'⟩ := h'
  refine ⟨ts ++ us, by rw [hts, hus, List.append_assoc], ?_⟩
  exact List.forall_mem_append.mpr ⟨hends, hends'⟩

theorem size_le (h : c.Reaches c₁) : c₁.size ≤ c.size := by
  obtain ⟨ts, hts, -⟩ := h
  have hlength := congrArg List.length hts
  simp only [tokens, List.length_append, List.length_singleton] at hlength
  unfold size
  omega

end Reaches

end Cursor

/-! ### Iterations in different places -/

namespace Outcome

open Cursor

variable {α β : Type} {m n : Nat} {c : Cursor}

/-- The places where iterations begin behind a rule that succeeds. -/
def behind (o : Outcome α m) (starts : (c : Cursor) → c.size < m → List Cursor) : List Cursor :=
  match o with
  | done _ c h => starts c h
  | failed _ _ => []

/-- A rule that is applied to the cursor begins iterations at these places, one behind
the other. It stops behind all of them if it succeeds. -/
structure Spaced (c : Cursor) (starts : List Cursor) (o : Outcome α n) : Prop where
  stops : c.Reaches o.cursor
  placed : ∀ s ∈ starts, c.Reaches s
  ordered : starts.Pairwise fun s t => t.size < s.size
  before : ∀ s ∈ starts, o.cursor.size ≤ s.size
  passed : ∀ a, o.result = .ok a → ∀ s ∈ starts, o.cursor.size < s.size

/-- The rule has read a token before it begins an iteration. -/
structure SpacedBehind (c : Cursor) (starts : List Cursor) (o : Outcome α n) : Prop
    extends Spaced c starts o where
  later : ∀ s ∈ starts, s.size < c.size

theorem Stays.spaced {o : Outcome α n} (h : o.Stays c) : o.SpacedBehind c [] where
  stops := h.reads
  placed := nofun
  ordered := .nil
  before := nofun
  passed _ _ := nofun
  later := nofun

theorem Spaced.done {a : α} {hc : c.size < n} : (Outcome.done a c hc).Spaced c [] :=
  Stays.done.spaced.toSpaced

theorem Spaced.andThen {starts : List Cursor} {o : Outcome α m} (h : o.Spaced c starts)
    {rule : α → (c : Cursor) → c.size < m → Outcome β n}
    {further : (c : Cursor) → c.size < m → List Cursor}
    (hrule : ∀ a c₁ h₁, (rule a c₁ h₁).Spaced c₁ (further c₁ h₁)) :
    (o.andThen rule).Spaced c (starts ++ o.behind further) := by
  cases o with
  | failed e c₁ =>
      simp only [behind, List.append_nil]
      exact ⟨h.stops, h.placed, h.ordered, h.before, nofun⟩
  | done a c₁ h₁ =>
      have h' := hrule a c₁ h₁
      have hstop := h'.stops.size_le
      have hpassed (s : Cursor) (hs : s ∈ starts) : c₁.size < s.size := h.passed a rfl s hs
      refine ⟨h.stops.trans h'.stops, ?_, ?_, ?_, fun b hb => ?_⟩
      · exact List.forall_mem_append.mpr
          ⟨h.placed, fun s hs => h.stops.trans (h'.placed s hs)⟩
      · refine List.pairwise_append.mpr ⟨h.ordered, h'.ordered, fun s hs t ht => ?_⟩
        exact Nat.lt_of_le_of_lt (h'.placed t ht).size_le (hpassed s hs)
      · refine List.forall_mem_append.mpr ⟨fun s hs => ?_, h'.before⟩
        exact Nat.le_of_lt (Nat.lt_of_le_of_lt hstop (hpassed s hs))
      · refine List.forall_mem_append.mpr ⟨fun s hs => ?_, h'.passed b hb⟩
        exact Nat.lt_of_le_of_lt hstop (hpassed s hs)

theorem SpacedBehind.andThen {starts : List Cursor} {o : Outcome α c.size}
    (h : o.SpacedBehind c starts) {rule : α → (c₁ : Cursor) → c₁.size < c.size → Outcome β n}
    {further : (c₁ : Cursor) → c₁.size < c.size → List Cursor}
    (hrule : ∀ a c₁ h₁, (rule a c₁ h₁).Spaced c₁ (further c₁ h₁)) :
    (o.andThen rule).SpacedBehind c (starts ++ o.behind further) where
  toSpaced := h.toSpaced.andThen hrule
  later := by
    refine List.forall_mem_append.mpr ⟨h.later, ?_⟩
    cases o with
    | failed e c₁ => exact nofun
    | done a c₁ h₁ =>
        exact fun s hs => Nat.lt_of_le_of_lt ((hrule a c₁ h₁).placed s hs).size_le h₁

/-- What follows begins no iteration. -/
theorem Spaced.closed {starts : List Cursor} {o : Outcome α m} (h : o.Spaced c starts)
    {rule : α → (c : Cursor) → c.size < m → Outcome β n}
    (hrule : ∀ a c₁ h₁, (rule a c₁ h₁).Stays c₁) : (o.andThen rule).Spaced c starts := by
  have hnone : starts ++ o.behind (fun _ _ => []) = starts := by
    cases o <;> exact List.append_nil _
  exact hnone ▸ h.andThen fun a c₁ h₁ => (hrule a c₁ h₁).spaced.toSpaced

theorem SpacedBehind.closed {starts : List Cursor} {o : Outcome α m} (h : o.SpacedBehind c starts)
    {rule : α → (c : Cursor) → c.size < m → Outcome β n}
    (hrule : ∀ a c₁ h₁, (rule a c₁ h₁).Stays c₁) : (o.andThen rule).SpacedBehind c starts :=
  ⟨h.toSpaced.closed hrule, h.later⟩

/-- An iteration begins at the cursor, and the rule goes on behind what that reads. -/
theorem SpacedBehind.iteration {starts : List Cursor} {o : Outcome α c.size}
    (h : o.SpacedBehind c starts) {rule : α → (c₁ : Cursor) → c₁.size < c.size → Outcome β n}
    {further : (c₁ : Cursor) → c₁.size < c.size → List Cursor}
    (hrule : ∀ a c₁ h₁, (rule a c₁ h₁).Spaced c₁ (further c₁ h₁)) :
    (o.andThen rule).Spaced c (c :: (starts ++ o.behind further)) := by
  have hwhole := h.andThen hrule
  refine ⟨hwhole.stops, ?_, ?_, ?_, fun b hb => ?_⟩
  · exact List.forall_mem_cons.mpr ⟨.refl c, hwhole.placed⟩
  · exact List.pairwise_cons.mpr ⟨hwhole.later, hwhole.ordered⟩
  · exact List.forall_mem_cons.mpr ⟨hwhole.stops.size_le, hwhole.before⟩
  · refine List.forall_mem_cons.mpr ⟨?_, hwhole.passed b hb⟩
    -- If the rule succeeds, the part in front has read a token.
    cases o with
    | failed e c₁ => cases hb
    | done a c₁ h₁ => exact Nat.lt_of_le_of_lt (hrule a c₁ h₁).stops.size_le h₁

end Outcome

namespace Grammar

open Cursor Outcome

/-! ### Expressions -/

mutual

def exprStarts (d : Dispatch) (c : Cursor) : List Cursor :=
  additionStarts d c ++ (addition d c).behind fun c₁ _ => comparisonsStarts d c₁
termination_by 8 * c.size + 5

/-- Every operator begins an iteration. -/
def comparisonsStarts (d : Dispatch) (c : Cursor) : List Cursor :=
  match comparison? c.kind with
  | none => []
  | some _ => c :: (c.takeAny [.equal, .notEqual]).behind fun c₁ _ =>
      additionStarts d c₁ ++ (addition d c₁).behind fun c₂ _ => comparisonsStarts d c₂
termination_by 8 * c.size

def additionStarts (d : Dispatch) (c : Cursor) : List Cursor :=
  factorStarts d c ++ (factor d c).behind fun c₁ _ =>
    if c₁.kind = .plus then (c₁.take .plus).behind fun c₂ _ => additionStarts d c₂ else []
termination_by 8 * c.size + 4

def factorStarts (d : Dispatch) (c : Cursor) : List Cursor :=
  match d.factor? c.kind with
  | none => []
  | some .unaryPlus => (c.take .plus).behind fun c₁ _ => factorStarts d c₁
  | some .negation => (c.take .minus).behind fun c₁ _ => factorStarts d c₁
  | some .grouping => (c.take .leftParen).behind fun c₁ _ => exprStarts d c₁
  | some .atom => if c.kind = .identifier ∧ c.peek 1 = .leftParen then callStarts d c else []
termination_by 8 * c.size + 3

def callStarts (d : Dispatch) (c : Cursor) : List Cursor :=
  (c.take .identifier).behind fun c₁ _ =>
  (c₁.take .leftParen).behind fun c₂ _ =>
    if c₂.kind = .rightParen then [] else argumentsStarts d c₂
termination_by 8 * c.size + 1

/-- Every argument begins an iteration. -/
def argumentsStarts (d : Dispatch) (c : Cursor) : List Cursor :=
  c :: (exprStarts d c ++ (expr d c).behind fun c₁ _ =>
    if c₁.kind = .comma then (c₁.take .comma).behind fun c₂ _ => argumentsStarts d c₂ else [])
termination_by 8 * c.size + 6

end

theorem atom_eq_call (d : Dispatch) {c : Cursor} (hkind : c.kind = .identifier)
    (hpeek : c.peek 1 = .leftParen) : atom d c = call d c := by
  rw [atom, hkind]
  exact if_pos hpeek

mutual

theorem expr_spaced (d : Dispatch) (c : Cursor) : (expr d c).SpacedBehind c (exprStarts d c) := by
  rw [expr, exprStarts]
  exact (addition_spaced d c).andThen fun left c₁ h₁ => comparisons_spaced d left c₁ h₁
termination_by 8 * c.size + 5

theorem comparisons_spaced (d : Dispatch) (left : Expr) (c : Cursor) {n : Nat} (h : c.size < n) :
    (comparisons d left c h).Spaced c (comparisonsStarts d c) := by
  rw [comparisons, comparisonsStarts]
  cases comparison? c.kind with
  | none => exact .done
  | some comparison =>
      refine (takeAny_stays _ c).spaced.iteration fun operator c₁ h₁ => ?_
      exact ((addition_spaced d c₁).andThen fun right c₂ h₂ =>
        comparisons_spaced d _ c₂ _).toSpaced
termination_by 8 * c.size

theorem addition_spaced (d : Dispatch) (c : Cursor) :
    (addition d c).SpacedBehind c (additionStarts d c) := by
  rw [addition, additionStarts]
  refine (factor_spaced d c).andThen fun left c₁ h₁ => ?_
  split
  · refine ((take_stays _ c₁).spaced.andThen fun operator c₂ h₂ => ?_).toSpaced
    exact ((addition_spaced d c₂).closed fun right c₃ h₃ => .done).toSpaced
  · exact .done
termination_by 8 * c.size + 4

theorem factor_spaced (d : Dispatch) (c : Cursor) :
    (factor d c).SpacedBehind c (factorStarts d c) := by
  rw [factor, factorStarts]
  cases d.factor? c.kind with
  | none => exact Stays.unexpected.spaced
  | some rule =>
      cases rule with
      | unaryPlus =>
          simp only [unaryPlus]
          refine (take_stays _ c).spaced.andThen fun _ c₁ h₁ => ?_
          exact ((factor_spaced d c₁).closed fun operand c₂ h₂ => .done).toSpaced
      | negation =>
          simp only [negation]
          refine (take_stays _ c).spaced.andThen fun _ c₁ h₁ => ?_
          exact ((factor_spaced d c₁).closed fun operand c₂ h₂ => .done).toSpaced
      | grouping =>
          simp only [grouping]
          refine (take_stays _ c).spaced.andThen fun _ c₁ h₁ => ?_
          refine ((expr_spaced d c₁).closed fun inner c₂ h₂ => ?_).toSpaced
          exact (take_stays _ c₂).within fun _ c₃ h₃ _ => .done
      | atom =>
          by_cases hcall : c.kind = .identifier ∧ c.peek 1 = .leftParen
          · simp only [if_pos hcall, atom_eq_call d hcall.1 hcall.2]
            exact call_spaced d c
          · simp only [if_neg hcall]
            exact (atom_stays d c).spaced
termination_by 8 * c.size + 3

theorem call_spaced (d : Dispatch) (c : Cursor) : (call d c).SpacedBehind c (callStarts d c) := by
  rw [call, callStarts]
  refine (take_stays _ c).spaced.andThen fun callee c₁ h₁ => ?_
  refine ((take_stays _ c₁).spaced.andThen fun _ c₂ h₂ => ?_).toSpaced
  refine Spaced.closed ?_ fun args c₃ h₃ => (take_stays _ c₃).within fun _ c₄ h₄ _ => .done
  rw [argumentList]
  split
  · exact .done
  · exact (arguments_spaced d c₂).closed fun args c₃ h₃ => .done
termination_by 8 * c.size + 1

theorem arguments_spaced (d : Dispatch) (c : Cursor) :
    (arguments d c).Spaced c (argumentsStarts d c) := by
  rw [arguments, argumentsStarts]
  refine (expr_spaced d c).iteration fun first c₁ h₁ => ?_
  split
  · refine ((take_stays _ c₁).spaced.andThen fun _ c₂ h₂ => ?_).toSpaced
    exact (arguments_spaced d c₂).closed fun more c₃ h₃ => .done
  · exact .done
termination_by 8 * c.size + 6

end

/-! ### Statements -/

def printStarts (d : Dispatch) (c : Cursor) : List Cursor :=
  (c.take .kwPrint).behind fun c₁ _ =>
  (c₁.take .leftParen).behind fun c₂ _ => exprStarts d c₂

def declareStarts (d : Dispatch) (c : Cursor) : List Cursor :=
  (c.take .kwLet).behind fun c₁ _ =>
  (c₁.take .identifier).behind fun c₂ _ =>
  (c₂.take .colon).behind fun c₃ _ =>
  (type c₃).behind fun c₄ _ =>
  (c₄.take .assign).behind fun c₅ _ => exprStarts d c₅

def assignStarts (d : Dispatch) (c : Cursor) : List Cursor :=
  (c.take .identifier).behind fun c₁ _ =>
  (c₁.take .assign).behind fun c₂ _ => exprStarts d c₂

def retStarts (d : Dispatch) (c : Cursor) : List Cursor :=
  (c.take .kwReturn).behind fun c₁ _ => exprStarts d c₁

mutual

def stmtStarts (d : Dispatch) (c : Cursor) : List Cursor :=
  match d.stmt? c.kind with
  | some .ifThen => ifStarts d c
  | some .print => printStarts d c
  | some .declare => declareStarts d c
  | some .ret => retStarts d c
  | none =>
      if c.kind = .identifier ∧ c.peek 1 = .assign then assignStarts d c else exprStarts d c
termination_by 4 * c.size + 1

def ifStarts (d : Dispatch) (c : Cursor) : List Cursor :=
  (c.take .kwIf).behind fun c₁ _ => exprStarts d c₁ ++ (expr d c₁).behind fun c₂ _ =>
  (c₂.take .colon).behind fun c₃ _ =>
  (c₃.take .newline).behind fun c₄ _ => blockStarts d c₄
termination_by 4 * c.size

def blockStarts (d : Dispatch) (c : Cursor) : List Cursor :=
  (c.take .indent).behind fun c₁ _ => stmtsStarts d c₁
termination_by 4 * c.size

/-- Every statement begins an iteration. -/
def stmtsStarts (d : Dispatch) (c : Cursor) : List Cursor :=
  if c.kind = .dedent then []
  else c :: (stmtStarts d c ++ (stmt d c).behind fun c₁ _ => stmtsStarts d c₁)
termination_by 4 * c.size + 2

end

theorem printStmt_spaced (d : Dispatch) (c : Cursor) :
    (printStmt d c).SpacedBehind c (printStarts d c) := by
  unfold printStmt printStarts
  refine (take_stays _ c).spaced.andThen fun start c₁ h₁ => ?_
  refine ((take_stays _ c₁).spaced.andThen fun _ c₂ h₂ => ?_).toSpaced
  refine ((expr_spaced d c₂).closed fun value c₃ h₃ => ?_).toSpaced
  refine (take_stays _ c₃).within fun _ c₄ h₄ _ => ?_
  exact (take_stays _ c₄).within fun _ c₅ h₅ _ => .done

theorem declareStmt_spaced (d : Dispatch) (c : Cursor) :
    (declareStmt d c).SpacedBehind c (declareStarts d c) := by
  unfold declareStmt declareStarts
  refine (take_stays _ c).spaced.andThen fun start c₁ h₁ => ?_
  refine ((take_stays _ c₁).spaced.andThen fun name c₂ h₂ => ?_).toSpaced
  refine ((take_stays _ c₂).spaced.andThen fun _ c₃ h₃ => ?_).toSpaced
  refine ((type_stays c₃).spaced.andThen fun ty c₄ h₄ => ?_).toSpaced
  refine ((take_stays _ c₄).spaced.andThen fun _ c₅ h₅ => ?_).toSpaced
  refine ((expr_spaced d c₅).closed fun value c₆ h₆ => ?_).toSpaced
  exact (take_stays _ c₆).within fun _ c₇ h₇ _ => .done

theorem assignStmt_spaced (d : Dispatch) (c : Cursor) :
    (assignStmt d c).SpacedBehind c (assignStarts d c) := by
  unfold assignStmt assignStarts
  refine (take_stays _ c).spaced.andThen fun name c₁ h₁ => ?_
  refine ((take_stays _ c₁).spaced.andThen fun _ c₂ h₂ => ?_).toSpaced
  refine ((expr_spaced d c₂).closed fun value c₃ h₃ => ?_).toSpaced
  exact (take_stays _ c₃).within fun _ c₄ h₄ _ => .done

theorem retStmt_spaced (d : Dispatch) (c : Cursor) :
    (retStmt d c).SpacedBehind c (retStarts d c) := by
  unfold retStmt retStarts
  refine (take_stays _ c).spaced.andThen fun start c₁ h₁ => ?_
  refine ((expr_spaced d c₁).closed fun value c₂ h₂ => ?_).toSpaced
  exact (take_stays _ c₂).within fun _ c₃ h₃ _ => .done

theorem evaluateStmt_spaced (d : Dispatch) (c : Cursor) :
    (evaluateStmt d c).SpacedBehind c (exprStarts d c) := by
  unfold evaluateStmt
  refine (expr_spaced d c).closed fun value c₁ h₁ => ?_
  exact (take_stays _ c₁).within fun _ c₂ h₂ _ => .done

mutual

theorem stmt_spaced (d : Dispatch) (c : Cursor) : (stmt d c).SpacedBehind c (stmtStarts d c) := by
  rw [stmt, stmtStarts]
  cases d.stmt? c.kind with
  | some rule =>
      cases rule with
      | ifThen => exact ifStmt_spaced d c
      | print => exact printStmt_spaced d c
      | declare => exact declareStmt_spaced d c
      | ret => exact retStmt_spaced d c
  | none =>
      simp only
      split
      · exact assignStmt_spaced d c
      · exact evaluateStmt_spaced d c
termination_by 4 * c.size + 1

theorem ifStmt_spaced (d : Dispatch) (c : Cursor) : (ifStmt d c).SpacedBehind c (ifStarts d c) := by
  rw [ifStmt, ifStarts]
  refine (take_stays _ c).spaced.andThen fun start c₁ h₁ => ?_
  refine ((expr_spaced d c₁).andThen fun condition c₂ h₂ => ?_).toSpaced
  refine ((take_stays _ c₂).spaced.andThen fun _ c₃ h₃ => ?_).toSpaced
  refine ((take_stays _ c₃).spaced.andThen fun _ c₄ h₄ => ?_).toSpaced
  exact ((block_spaced d c₄).closed fun body c₅ h₅ => .done).toSpaced
termination_by 4 * c.size

theorem block_spaced (d : Dispatch) (c : Cursor) :
    (block d c).SpacedBehind c (blockStarts d c) := by
  rw [block, blockStarts]
  refine (take_stays _ c).spaced.andThen fun start c₁ h₁ => ?_
  refine (stmts_spaced d c₁ h₁).closed fun body c₂ h₂ => ?_
  exact (take_stays _ c₂).within fun _ c₃ h₃ _ => .done
termination_by 4 * c.size

theorem stmts_spaced (d : Dispatch) (c : Cursor) {n : Nat} (h : c.size < n) :
    (stmts d c h).Spaced c (stmtsStarts d c) := by
  rw [stmts, stmtsStarts]
  split
  · exact .done
  · refine (stmt_spaced d c).iteration fun first c₁ h₁ => ?_
    exact (stmts_spaced d c₁ _).closed fun more c₂ h₂ => .done
termination_by 4 * c.size + 2

end

/-! ### Functions -/

/-- Every parameter begins an iteration. -/
def parametersStarts (c : Cursor) : List Cursor :=
  c :: (c.take .identifier).behind fun c₁ _ =>
  (c₁.take .colon).behind fun c₂ _ =>
  (type c₂).behind fun c₃ _ =>
    if c₃.kind = .comma then (c₃.take .comma).behind fun c₄ _ => parametersStarts c₄ else []
termination_by c.size

/-- Where iterations begin behind the parameters of a function. -/
def resultStarts (d : Dispatch) (c : Cursor) : List Cursor :=
  (c.take .rightParen).behind fun c₁ _ =>
  (c₁.take .arrow).behind fun c₂ _ =>
  (type c₂).behind fun c₃ _ =>
  (c₃.take .colon).behind fun c₄ _ =>
  (c₄.take .newline).behind fun c₅ _ => blockStarts d c₅

def functionStarts (d : Dispatch) (c : Cursor) : List Cursor :=
  (c.take .kwDef).behind fun c₁ _ =>
  (c₁.take .identifier).behind fun c₂ _ =>
  (c₂.take .leftParen).behind fun c₃ _ =>
    if c₃.kind = .rightParen then resultStarts d c₃
    else parametersStarts c₃ ++ (parameters c₃).behind fun c₄ _ => resultStarts d c₄

/-- Every function begins an iteration. -/
def functionsStarts (d : Dispatch) (c : Cursor) : List Cursor :=
  if c.kind = .eof then []
  else c :: (functionStarts d c ++ (function d c).behind fun c₁ _ => functionsStarts d c₁)
termination_by c.size

theorem parameters_spaced (c : Cursor) : (parameters c).Spaced c (parametersStarts c) := by
  rw [parameters, parametersStarts]
  refine (take_stays _ c).spaced.iteration fun name c₁ h₁ => ?_
  refine ((take_stays _ c₁).spaced.andThen fun _ c₂ h₂ => ?_).toSpaced
  refine ((type_stays c₂).spaced.andThen fun ty c₃ h₃ => ?_).toSpaced
  dsimp only
  split
  · refine ((take_stays _ c₃).spaced.andThen fun _ c₄ h₄ => ?_).toSpaced
    exact (parameters_spaced c₄).closed fun more c₅ h₅ => .done
  · exact .done
termination_by c.size

theorem parameterList_spaced {β : Type} {d : Dispatch} {c : Cursor} {m n : Nat} (h : c.size < m)
    {rule : List Parameter → (c : Cursor) → c.size < m → Outcome β n}
    (hrule : ∀ ps c₁ h₁, (rule ps c₁ h₁).Spaced c₁ (resultStarts d c₁)) :
    ((parameterList c h).andThen rule).Spaced c (if c.kind = .rightParen then resultStarts d c
      else parametersStarts c ++ (parameters c).behind fun c₁ _ => resultStarts d c₁) := by
  unfold parameterList
  split
  · exact hrule [] c h
  · have hlist : ((parameters c).within h fun ps c₁ h₁ _ => .done ps c₁ h₁).Spaced c
        (parametersStarts c) := (parameters_spaced c).closed fun _ _ _ => .done
    have hbehind : ((parameters c).within h fun ps c₁ h₁ _ => .done ps c₁ h₁).behind
        (fun c₁ _ => resultStarts d c₁) = (parameters c).behind fun c₁ _ => resultStarts d c₁ := by
      cases parameters c <;> rfl
    exact hbehind ▸ hlist.andThen hrule

theorem function_spaced (d : Dispatch) (c : Cursor) :
    (function d c).SpacedBehind c (functionStarts d c) := by
  unfold function functionStarts
  refine (take_stays _ c).spaced.andThen fun start c₁ h₁ => ?_
  refine ((take_stays _ c₁).spaced.andThen fun name c₂ h₂ => ?_).toSpaced
  refine ((take_stays _ c₂).spaced.andThen fun _ c₃ h₃ => ?_).toSpaced
  refine parameterList_spaced _ fun ps c₄ h₄ => ?_
  unfold resultStarts
  refine ((take_stays _ c₄).spaced.andThen fun _ c₅ h₅ => ?_).toSpaced
  refine ((take_stays _ c₅).spaced.andThen fun _ c₆ h₆ => ?_).toSpaced
  refine ((type_stays c₆).spaced.andThen fun returns c₇ h₇ => ?_).toSpaced
  refine ((take_stays _ c₇).spaced.andThen fun _ c₈ h₈ => ?_).toSpaced
  refine ((take_stays _ c₈).spaced.andThen fun _ c₉ h₉ => ?_).toSpaced
  exact ((block_spaced d c₉).closed fun body c₁₀ h₁₀ => .done).toSpaced

/-- All iterations of a program begin at different places, one behind the other. -/
theorem functions_spaced (d : Dispatch) (c : Cursor) {n : Nat} (h : c.size < n) :
    (functions d c h).Spaced c (functionsStarts d c) := by
  rw [functions, functionsStarts]
  split
  · exact .done
  · refine (function_spaced d c).iteration fun first c₁ h₁ => ?_
    exact (functions_spaced d c₁ _).closed fun more c₂ h₂ => .done
termination_by c.size

end Grammar

end Octet
