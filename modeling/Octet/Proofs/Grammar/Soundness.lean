import Mathlib.Data.List.Induction
import Octet.Grammar.Program
import Octet.Proofs.Grammar.Rules

/-!
Whatever the rules read, the grammar derives. A rule that succeeds has taken
some tokens from the front of its cursor, and these derive its value;
`Outcome.Consumes` says so, and it passes through the two ways in which rules
are put together. Each rule then gets one lemma, whose proof has a step for
each thing that the rule reads.
-/

namespace Octet

/-! ### Rules that consume what they should -/

namespace Outcome

variable {α β : Type} {m n : Nat} {R : List Token → α → Prop} {Q : List Token → β → Prop}
  {c : Cursor}

/-- If the rule succeeds, the tokens that it has taken from the cursor are in
the relation to its value. -/
def Consumes (c : Cursor) (R : List Token → α → Prop) : Outcome α n → Prop
  | done a c' _ => ∃ ts, c = ⟨ts ++ c'.ahead, c'.last, c'.last_kind⟩ ∧ R ts a
  | failed _ _ => True

theorem Consumes.done {a : α} (h : R [] a) {hc : c.size < n} :
    (Outcome.done a c hc).Consumes c R := ⟨[], rfl, h⟩

theorem Consumes.andThen {o : Outcome α m} (h : o.Consumes c R)
    {rule : α → (c : Cursor) → c.size < m → Outcome β n}
    (hrule : ∀ a c' hc ts, R ts a → (rule a c' hc).Consumes c' fun us => Q (ts ++ us)) :
    (o.andThen rule).Consumes c Q := by
  cases o with
  | failed e c' => trivial
  | done a c' hc =>
      obtain ⟨ts, rfl, hts⟩ := h
      have hnext := hrule a c' hc ts hts
      rw [andThen_done]
      cases hrest : rule a c' hc with
      | failed e c'' => trivial
      | done b c'' hc' =>
          rw [hrest] at hnext
          obtain ⟨us, rfl, hus⟩ := hnext
          exact ⟨ts ++ us, by simp, hus⟩

theorem Consumes.within {o : Outcome α m} (h : o.Consumes c R) {reached : m < n}
    {rule : α → (c : Cursor) → c.size < n → c.size < m → Outcome β n}
    (hrule : ∀ a c' hc hc' ts, R ts a → (rule a c' hc hc').Consumes c' fun us => Q (ts ++ us)) :
    (o.within reached rule).Consumes c Q :=
  h.andThen fun a c' hc ts hts => hrule a c' _ hc ts hts

end Outcome

namespace Cursor

open Outcome

theorem takeAny_consumes (ks : List Token.Kind) (c : Cursor) :
    (c.takeAny ks).Consumes c fun ts t => ts = [t] ∧ t.kind ∈ ks ∧ t.kind = c.kind := by
  unfold takeAny
  split
  · next h =>
      rcases c with ⟨ahead, last, hlast⟩
      cases ahead with
      | nil => exact absurd hlast h.2
      | cons t ts => exact ⟨[t], rfl, rfl, h.1, rfl⟩
  · trivial

variable {β : Type} {n : Nat} {Q : List Token → β → Prop} {c : Cursor}

/-- A token in front of the rest of a rule. -/
theorem take_andThen {k : Token.Kind}
    {rule : Token → (c' : Cursor) → c'.size < c.size → Outcome β n}
    (hrule : ∀ t c' hc, t.kind = k → (rule t c' hc).Consumes c' fun us => Q (t :: us)) :
    ((c.take k).andThen rule).Consumes c Q := by
  refine (takeAny_consumes [k] c).andThen fun t c' hc ts hts => ?_
  obtain ⟨rfl, hk, -⟩ := hts
  exact hrule t c' hc (List.mem_singleton.mp hk)

/-- A token in the middle of a rule. -/
theorem take_within {k : Token.Kind} {reached : c.size < n}
    {rule : Token → (c' : Cursor) → c'.size < n → c'.size < c.size → Outcome β n}
    (hrule : ∀ t c' hc hc', t.kind = k → (rule t c' hc hc').Consumes c' fun us => Q (t :: us)) :
    ((c.take k).within reached rule).Consumes c Q :=
  take_andThen fun t c' hc => hrule t c' _ hc

end Cursor

namespace Grammar

open Outcome Cursor

/-! ### Numerals -/

theorem SpellsNumber.ne_nil {ds : List Char} {n : Nat} (h : SpellsNumber ds n) : ds ≠ [] := by
  cases h <;> simp

theorem SpellsNumber.isDigit {ds : List Char} {n : Nat} (h : SpellsNumber ds n) :
    ∀ d ∈ ds, d.isDigit = true := by
  induction h with
  | digit hd => simpa using hd
  | snoc h hd ih =>
      intro d hmem
      rcases List.mem_append.mp hmem with hmem | hmem
      · exact ih d hmem
      · rw [List.mem_singleton.mp hmem]
        exact hd

theorem SpellsNumber.decimal_eq {ds : List Char} {n : Nat} (h : SpellsNumber ds n) :
    Text.decimal ds = n := by
  induction h with
  | digit hd => simp [Text.decimal]
  | snoc h hd ih => rw [← ih, Text.decimal, List.foldl_append]; rfl

theorem spellsNumber_decimal {ds : List Char} (hne : ds ≠ [])
    (hdigits : ∀ d ∈ ds, d.isDigit = true) : SpellsNumber ds (Text.decimal ds) := by
  induction ds using List.reverseRecOn with
  | nil => exact absurd rfl hne
  | append_singleton ds d ih =>
      have hd : d.isDigit = true := hdigits d (by simp)
      by_cases hds : ds = []
      · subst hds
        simpa [Text.decimal] using SpellsNumber.digit hd
      · have hfront := ih hds fun a ha => hdigits a (by simp [ha])
        rw [Text.decimal, List.foldl_append]
        exact .snoc hfront hd

/-- Bytes are read from the numerals that spell them. -/
theorem byte?_eq_some_iff {s : String} {b : UInt8} : Text.byte? s = some b ↔ SpellsByte s b := by
  have hread {ds : List Char} : (ds ≠ [] ∧ ds.all Char.isDigit ∧ Text.decimal ds < 256) ∧
      UInt8.ofNat (Text.decimal ds) = b ↔ SpellsNumber ds b.toNat := by
    constructor
    · rintro ⟨⟨hne, hall, hlt⟩, rfl⟩
      rw [UInt8.toNat_ofNat_of_lt' hlt]
      exact spellsNumber_decimal hne (List.all_eq_true.mp hall)
    · intro h
      have hlt := b.toNat_lt
      refine ⟨⟨h.ne_nil, List.all_eq_true.mpr h.isDigit, ?_⟩, ?_⟩
      · rw [h.decimal_eq]
        omega
      · rw [h.decimal_eq, UInt8.ofNat_toNat]
  have hbyte : Text.byte? s = some b ↔ SpellsNumber (Text.unsigned s.toList) b.toNat := by
    rw [← hread]
    simp [Text.byte?]
  rw [hbyte]
  unfold Text.unsigned
  split
  · next ds hs =>
      constructor
      · exact .signed hs
      · rintro (h | ⟨hds, h⟩)
        · rw [hs] at h
          exact absurd (h.isDigit '+' (by simp)) (by decide)
        · rw [hs, List.cons.injEq] at hds
          rwa [hds.2]
  · next hs =>
      constructor
      · exact .plain
      · rintro (h | ⟨hds, -⟩)
        · exact h
        · exact absurd hds (hs _)

/-! ### Expressions -/

theorem comparison?_derives {t : Token} {c : Comparison} (h : comparison? t.kind = some c) :
    DerivesComparison t c := by
  unfold comparison? at h
  split at h
  · next hk =>
      cases h
      exact .equal hk
  · next hk =>
      cases h
      exact .notEqual hk
  · cases h

theorem number_derives (c : Cursor) : (number c).Consumes c DerivesFactor := by
  unfold number
  refine take_andThen fun t c₁ h₁ ht => ?_
  split
  · next value hvalue => exact .done (.number ht (byte?_eq_some_iff.mp hvalue))
  · trivial

mutual

theorem expr_derives (d : Dispatch) (c : Cursor) : (expr d c).Consumes c DerivesExpr := by
  rw [expr]
  refine (addition_derives d c).andThen fun left c₁ h₁ ts hleft => ?_
  exact comparisons_derives d left c₁ h₁ (.single hleft)
termination_by 8 * c.size + 5

theorem comparisons_derives (d : Dispatch) (left : Expr) (c : Cursor) {n : Nat} (h : c.size < n)
    {ts : List Token} (hleft : DerivesExpr ts left) :
    (comparisons d left c h).Consumes c fun us => DerivesExpr (ts ++ us) := by
  rw [comparisons]
  split
  · exact .done (by rwa [List.append_nil])
  · next comparison hc =>
      refine (takeAny_consumes _ c).within fun op c₁ h₁ _ us hop => ?_
      obtain ⟨rfl, -, hkind⟩ := hop
      rw [← hkind] at hc
      refine (addition_derives d c₁).within fun right c₂ h₂ _ vs hright => ?_
      -- What has been read so far is the left operand of the next comparison.
      have hboth := DerivesExpr.compare hleft (comparison?_derives hc) hright
      simpa using comparisons_derives d _ c₂ h₂ hboth
termination_by 8 * c.size

theorem addition_derives (d : Dispatch) (c : Cursor) :
    (addition d c).Consumes c DerivesAddition := by
  rw [addition]
  refine (factor_derives d c).andThen fun left c₁ h₁ ts hleft => ?_
  split
  · refine take_within fun op c₂ h₂ _ hop => ?_
    refine (addition_derives d c₂).within fun right c₃ h₃ _ us hright => ?_
    exact .done (by simpa using .add hleft hop hright)
  · exact .done (by simpa using .single hleft)
termination_by 8 * c.size + 4

theorem factor_derives (d : Dispatch) (c : Cursor) : (factor d c).Consumes c DerivesFactor := by
  rw [factor]
  split
  · trivial
  · exact unaryPlus_derives d c
  · exact negation_derives d c
  · exact grouping_derives d c
  · exact atom_derives d c
termination_by 8 * c.size + 3

theorem unaryPlus_derives (d : Dispatch) (c : Cursor) :
    (unaryPlus d c).Consumes c DerivesFactor := by
  rw [unaryPlus]
  refine take_andThen fun op c₁ h₁ hop => ?_
  refine (factor_derives d c₁).within fun operand c₂ h₂ _ ts hoperand => ?_
  exact .done (by simpa using .unaryPlus hop hoperand)
termination_by 8 * c.size + 2

theorem negation_derives (d : Dispatch) (c : Cursor) :
    (negation d c).Consumes c DerivesFactor := by
  rw [negation]
  refine take_andThen fun op c₁ h₁ hop => ?_
  refine (factor_derives d c₁).within fun operand c₂ h₂ _ ts hoperand => ?_
  exact .done (by simpa using .negate hop hoperand)
termination_by 8 * c.size + 2

theorem grouping_derives (d : Dispatch) (c : Cursor) :
    (grouping d c).Consumes c DerivesFactor := by
  rw [grouping]
  refine take_andThen fun lp c₁ h₁ hlp => ?_
  refine (expr_derives d c₁).within fun inner c₂ h₂ _ ts hinner => ?_
  refine take_within fun rp c₃ h₃ _ hrp => ?_
  exact .done (.group hlp hinner hrp)
termination_by 8 * c.size + 2

theorem atom_derives (d : Dispatch) (c : Cursor) : (atom d c).Consumes c DerivesFactor := by
  rw [atom]
  split
  · exact number_derives c
  · split
    · exact call_derives d c
    · exact take_andThen fun x c₁ h₁ hx => .done (.var hx)
  · exact take_andThen fun t c₁ h₁ ht => .done (.true ht)
  · exact take_andThen fun t c₁ h₁ ht => .done (.false ht)
  · trivial
termination_by 8 * c.size + 2

theorem call_derives (d : Dispatch) (c : Cursor) : (call d c).Consumes c DerivesFactor := by
  rw [call]
  refine take_andThen fun callee c₁ h₁ hcallee => ?_
  refine take_within fun lp c₂ h₂ _ hlp => ?_
  refine (argumentList_derives d c₂ h₂).andThen fun args c₃ h₃ ts hargs => ?_
  refine take_within fun rp c₄ h₄ _ hrp => ?_
  rcases hargs with ⟨rfl, rfl⟩ | hargs
  · exact .done (.callNone hcallee hlp hrp)
  · exact .done (.call hcallee hlp hargs hrp)
termination_by 8 * c.size + 1

theorem argumentList_derives (d : Dispatch) (c : Cursor) {n : Nat} (h : c.size < n) :
    (argumentList d c h).Consumes c
      fun ts args => (ts = [] ∧ args = []) ∨ DerivesArguments ts args := by
  rw [argumentList]
  split
  · exact .done (.inl ⟨rfl, rfl⟩)
  · refine (arguments_derives d c).within fun args c₁ h₁ _ ts hargs => ?_
    exact .done (.inr (by simpa using hargs))
termination_by 8 * c.size + 7

theorem arguments_derives (d : Dispatch) (c : Cursor) :
    (arguments d c).Consumes c DerivesArguments := by
  rw [arguments]
  refine (expr_derives d c).andThen fun first c₁ h₁ ts hfirst => ?_
  split
  · refine take_within fun comma c₂ h₂ _ hcomma => ?_
    refine (arguments_derives d c₂).within fun more c₃ h₃ _ us hmore => ?_
    exact .done (by simpa using .cons hfirst hcomma hmore)
  · exact .done (by simpa using .single hfirst)
termination_by 8 * c.size + 6

end

/-! ### Statements -/

theorem typeOf_derives {t : Token} (h : t.kind ∈ typeStart) : DerivesType t (typeOf t) := by
  have hkinds : t.kind = .kwVoid ∨ t.kind = .kwBool ∨ t.kind = .kwI8 ∨ t.kind = .kwU8 ∨
      t.kind = .identifier := by
    simpa [typeStart] using h
  unfold typeOf
  rcases hkinds with hk | hk | hk | hk | hk <;> rw [hk]
  · exact .void hk
  · exact .bool hk
  · exact .i8 hk
  · exact .u8 hk
  · exact .named hk

theorem type_derives (c : Cursor) :
    (type c).Consumes c fun ts ty => ∃ t, ts = [t] ∧ DerivesType t ty := by
  unfold type
  refine (takeAny_consumes typeStart c).andThen fun t c₁ h₁ ts ht => ?_
  obtain ⟨rfl, hk, -⟩ := ht
  exact .done ⟨t, rfl, typeOf_derives hk⟩

theorem printStmt_derives (d : Dispatch) (c : Cursor) :
    (printStmt d c).Consumes c DerivesStmt := by
  unfold printStmt
  refine take_andThen fun start c₁ h₁ hstart => ?_
  refine take_within fun lp c₂ h₂ _ hlp => ?_
  refine (expr_derives d c₂).within fun value c₃ h₃ _ ts hvalue => ?_
  refine take_within fun rp c₄ h₄ _ hrp => ?_
  refine take_within fun nl c₅ h₅ _ hnl => ?_
  exact .done (.print hstart hlp hvalue hrp hnl)

theorem declareStmt_derives (d : Dispatch) (c : Cursor) :
    (declareStmt d c).Consumes c DerivesStmt := by
  unfold declareStmt
  refine take_andThen fun start c₁ h₁ hstart => ?_
  refine take_within fun x c₂ h₂ _ hx => ?_
  refine take_within fun colon c₃ h₃ _ hcolon => ?_
  refine (type_derives c₃).within fun ty c₄ h₄ _ ts hty => ?_
  obtain ⟨t, rfl, ht⟩ := hty
  refine take_within fun assign c₅ h₅ _ hassign => ?_
  refine (expr_derives d c₅).within fun value c₆ h₆ _ ts hvalue => ?_
  refine take_within fun nl c₇ h₇ _ hnl => ?_
  exact .done (.declare hstart hx hcolon ht hassign hvalue hnl)

theorem assignStmt_derives (d : Dispatch) (c : Cursor) :
    (assignStmt d c).Consumes c DerivesStmt := by
  unfold assignStmt
  refine take_andThen fun x c₁ h₁ hx => ?_
  refine take_within fun assign c₂ h₂ _ hassign => ?_
  refine (expr_derives d c₂).within fun value c₃ h₃ _ ts hvalue => ?_
  refine take_within fun nl c₄ h₄ _ hnl => ?_
  exact .done (.assign hx hassign hvalue hnl)

theorem retStmt_derives (d : Dispatch) (c : Cursor) : (retStmt d c).Consumes c DerivesStmt := by
  unfold retStmt
  refine take_andThen fun start c₁ h₁ hstart => ?_
  refine (expr_derives d c₁).within fun value c₂ h₂ _ ts hvalue => ?_
  refine take_within fun nl c₃ h₃ _ hnl => ?_
  exact .done (.ret hstart hvalue hnl)

theorem evaluateStmt_derives (d : Dispatch) (c : Cursor) :
    (evaluateStmt d c).Consumes c DerivesStmt := by
  unfold evaluateStmt
  refine (expr_derives d c).andThen fun value c₁ h₁ ts hvalue => ?_
  refine take_within fun nl c₂ h₂ _ hnl => ?_
  exact .done (.evaluate hvalue hnl)

mutual

theorem stmt_derives (d : Dispatch) (c : Cursor) : (stmt d c).Consumes c DerivesStmt := by
  rw [stmt]
  split
  · exact ifStmt_derives d c
  · exact printStmt_derives d c
  · exact declareStmt_derives d c
  · exact retStmt_derives d c
  · split
    · exact assignStmt_derives d c
    · exact evaluateStmt_derives d c
termination_by 4 * c.size + 1

theorem ifStmt_derives (d : Dispatch) (c : Cursor) : (ifStmt d c).Consumes c DerivesStmt := by
  rw [ifStmt]
  refine take_andThen fun start c₁ h₁ hstart => ?_
  refine (expr_derives d c₁).within fun condition c₂ h₂ _ ts hcondition => ?_
  refine take_within fun colon c₃ h₃ _ hcolon => ?_
  refine take_within fun nl c₄ h₄ _ hnl => ?_
  refine (block_derives d c₄).within fun body c₅ h₅ _ us hbody => ?_
  exact .done (by simpa using .ifThen hstart hcondition hcolon hnl hbody)
termination_by 4 * c.size

theorem block_derives (d : Dispatch) (c : Cursor) : (block d c).Consumes c DerivesBlock := by
  rw [block]
  refine take_andThen fun start c₁ h₁ hstart => ?_
  refine (stmts_derives d c₁ h₁).andThen fun body c₂ h₂ ts hbody => ?_
  refine take_within fun stop c₃ h₃ _ hstop => ?_
  exact .done (.indented hstart hbody hstop)
termination_by 4 * c.size

theorem stmts_derives (d : Dispatch) (c : Cursor) {n : Nat} (h : c.size < n) :
    (stmts d c h).Consumes c DerivesStmts := by
  rw [stmts]
  split
  · exact .done .nil
  · refine (stmt_derives d c).within fun first c₁ h₁ h₁' ts hfirst => ?_
    refine (stmts_derives d c₁ h₁).andThen fun more c₂ h₂ us hmore => ?_
    exact .done (by simpa using .cons hfirst hmore)
termination_by 4 * c.size + 2

end

/-! ### Functions -/

theorem parameters_derive (c : Cursor) : (parameters c).Consumes c DerivesParameters := by
  rw [parameters]
  refine take_andThen fun x c₁ h₁ hx => ?_
  refine take_within fun colon c₂ h₂ _ hcolon => ?_
  refine (type_derives c₂).within fun ty c₃ h₃ _ ts hty => ?_
  obtain ⟨t, rfl, ht⟩ := hty
  split
  · refine take_within fun comma c₄ h₄ _ hcomma => ?_
    refine (parameters_derive c₄).within fun more c₅ h₅ _ us hmore => ?_
    exact .done (by simpa using .cons hx hcolon ht hcomma hmore)
  · exact .done (.single hx hcolon ht)
termination_by c.size

theorem parameterList_derives (c : Cursor) {n : Nat} (h : c.size < n) :
    (parameterList c h).Consumes c DerivesParameterList := by
  unfold parameterList
  split
  · exact .done .none
  · refine (parameters_derive c).within fun ps c₁ h₁ _ ts hps => ?_
    exact .done (by simpa using .some hps)

theorem function_derives (d : Dispatch) (c : Cursor) :
    (function d c).Consumes c DerivesFunction := by
  unfold function
  refine take_andThen fun start c₁ h₁ hstart => ?_
  refine take_within fun name c₂ h₂ _ hname => ?_
  refine take_within fun lp c₃ h₃ _ hlp => ?_
  refine (parameterList_derives c₃ h₃).andThen fun ps c₄ h₄ ts hps => ?_
  refine take_within fun rp c₅ h₅ _ hrp => ?_
  refine take_within fun arrow c₆ h₆ _ harrow => ?_
  refine (type_derives c₆).within fun returns c₇ h₇ _ vs hreturns => ?_
  obtain ⟨t, rfl, ht⟩ := hreturns
  refine take_within fun colon c₈ h₈ _ hcolon => ?_
  refine take_within fun nl c₉ h₉ _ hnl => ?_
  refine (block_derives d c₉).within fun body c₁₀ h₁₀ _ us hbody => ?_
  exact .done (by simpa using .define hstart hname hlp hps hrp harrow ht hcolon hnl hbody)

theorem functions_derive (d : Dispatch) (c : Cursor) {n : Nat} (h : c.size < n) :
    (functions d c h).Consumes c DerivesFunctions := by
  rw [functions]
  split
  · exact .done .nil
  · refine (function_derives d c).within fun first c₁ h₁ h₁' ts hfirst => ?_
    refine (functions_derive d c₁ h₁).andThen fun more c₂ h₂ us hmore => ?_
    exact .done (by simpa using .cons hfirst hmore)
termination_by c.size

/-- Functions are read up to a token that ends a text. -/
theorem kind_of_functions_done (d : Dispatch) (c : Cursor) {n : Nat} (h : c.size < n)
    {fs : List Function} {c' : Cursor} {h' : c'.size < n}
    (hdone : functions d c h = .done fs c' h') : c'.kind = .eof := by
  rw [functions] at hdone
  split at hdone
  · next hk =>
      cases hdone
      exact hk
  · cases hfirst : function d c with
    | failed e c₁ => simp [hfirst] at hdone
    | done first c₁ h₁ =>
        rw [hfirst, within_done] at hdone
        have hshorter : c₁.size < n := Nat.lt_trans h₁ h
        cases hmore : functions d c₁ hshorter with
        | failed e c₂ => simp [hmore] at hdone
        | done more c₂ h₂ =>
            rw [hmore, andThen_done] at hdone
            cases hdone
            exact kind_of_functions_done d c₁ hshorter hmore
termination_by c.size

end Grammar

end Octet
