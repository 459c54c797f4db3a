import Octet.Proofs.Grammar.Soundness
import Octet.Proofs.Grammar.Stopping

/-!
What a rule says when it fails. It blames a token, and everything in front of
that token is the beginning of something that the rule derives. If the token is
of the wrong kind, a token of any of the kinds that the rule would have expected
goes on with that beginning. If the token is a number that is no byte, a number
does.

To see that a beginning can be gone on with, one has to know that the rest of a
rule can be derived at all. `Outcome.Guided` carries that along from the end of a
rule to its start.
-/

namespace Octet

namespace Outcome

open Grammar Cursor

variable {α β : Type} {m n : Nat} {R : List Token → α → Prop} {Q : List Token → β → Prop}
  {c : Cursor}

theorem failed_of_result {o : Outcome α n} {e : ParseError} (h : o.result = .error e) :
    ∃ stop, o = .failed e stop := by
  cases o with
  | done a c hc => cases h
  | failed e' stop =>
      cases h
      exact ⟨stop, rfl⟩

/-- Some tokens and then one of the kind begin a row that is in the relation. -/
def Extends (R : List Token → α → Prop) (front : List Token) (k : Token.Kind) : Prop :=
  ∃ t more a, t.kind = k ∧ R (front ++ t :: more) a

/-- The error is about a token with some tokens in front of it and some behind,
and its hints are good. -/
inductive Blames (R : List Token → α → Prop) (front : List Token) (t : Token)
    (behind : List Token) : ParseError → Cursor → Prop where
  | unexpected {expected : List Token.Kind} {stop : Cursor} : stop.tokens = t :: behind →
      expected ≠ [] → (∀ k ∈ expected, Extends R front k) →
      Blames R front t behind (.unexpected expected t.kind t.position) stop
  | outOfRange {stop : Cursor} : t.kind = .number → (∀ b, ¬ SpellsByte t.value b) →
      Extends R front .number → Blames R front t behind (.outOfRange t.value t.position) stop

/-- If the rule fails, it blames one of the tokens. -/
def Hints (c : Cursor) (R : List Token → α → Prop) : Outcome α n → Prop
  | done _ _ _ => True
  | failed e stop => ∃ front t behind, c.tokens = front ++ t :: behind ∧
      Blames R front t behind e stop

/-- The rule gives good hints wherever it fails, and there is something that it
derives. -/
structure Guided (R : List Token → α → Prop) (rule : (c : Cursor) → c.size < m → Outcome α n) :
    Prop where
  inhabited : ∃ ts a, R ts a
  hints : ∀ c h, (rule c h).Hints c R

theorem Blames.mono {us vs : List Token} {t : Token} {behind : List Token} {e : ParseError}
    {stop : Cursor} (h : Blames R us t behind e stop)
    (hextends : ∀ k, Extends R us k → Extends Q vs k) : Blames Q vs t behind e stop := by
  cases h with
  | unexpected hstop hne hexpected =>
      exact .unexpected hstop hne fun k hk => hextends k (hexpected k hk)
  | outOfRange hkind hbyte hnumber => exact .outOfRange hkind hbyte (hextends _ hnumber)

theorem Blames.extends {front : List Token} {t : Token} {behind : List Token} {e : ParseError}
    {stop : Cursor} (h : Blames R front t behind e stop) : ∃ k, Extends R front k := by
  cases h with
  | unexpected _ hne hexpected =>
      obtain ⟨k, hk⟩ := List.exists_mem_of_ne_nil _ hne
      exact ⟨k, hexpected k hk⟩
  | outOfRange _ _ hnumber => exact ⟨_, hnumber⟩

theorem Hints.andThen {o : Outcome α m} (h : o.Hints c R) (hreads : o.Consumes c R)
    {rule : α → (c : Cursor) → c.size < m → Outcome β n}
    (hrule : ∀ a ts, R ts a → Guided (fun us => Q (ts ++ us)) (rule a)) :
    (o.andThen rule).Hints c Q := by
  cases o with
  | failed e stop =>
      obtain ⟨front, t, behind, hc, hblames⟩ := h
      refine ⟨front, t, behind, hc, hblames.mono ?_⟩
      rintro k ⟨u, more, a, hu, ha⟩
      obtain ⟨us, b, hb⟩ := (hrule a _ ha).inhabited
      exact ⟨u, more ++ us, b, hu, by simpa using hb⟩
  | done a c₁ h₁ =>
      obtain ⟨ts, rfl, ha⟩ := hreads
      have hnext := (hrule a ts ha).hints c₁ h₁
      rw [andThen_done]
      cases hrest : rule a c₁ h₁ with
      | done b c₂ h₂ => trivial
      | failed e stop =>
          rw [hrest] at hnext
          obtain ⟨front, t, behind, hc, hblames⟩ := hnext
          refine ⟨ts ++ front, t, behind, ?_, hblames.mono ?_⟩
          · show ts ++ c₁.ahead ++ [c₁.last] = _
            rw [List.append_assoc, List.append_assoc, ← hc]
            rfl
          · rintro k ⟨u, more, b, hu, hb⟩
            exact ⟨u, more, b, hu, by simpa using hb⟩

theorem Hints.within {o : Outcome α m} (h : o.Hints c R) (hreads : o.Consumes c R) {reached : m < n}
    {rule : α → (c : Cursor) → c.size < n → Outcome β n}
    (hrule : ∀ a ts, R ts a → Guided (fun us => Q (ts ++ us)) (rule a)) :
    (o.within reached fun a c₁ h₁ _ => rule a c₁ h₁).Hints c Q :=
  h.andThen hreads fun a ts ha =>
    ⟨(hrule a ts ha).inhabited, fun c₁ _ => (hrule a ts ha).hints c₁ _⟩

theorem Guided.done {a : α} (h : R [] a) : Guided R (fun c (h : c.size < n) => .done a c h) :=
  ⟨⟨[], a, h⟩, fun _ _ => trivial⟩

theorem Guided.within {x : (c : Cursor) → Outcome α c.size} (hinhabited : ∃ ts a, R ts a)
    (hx : ∀ c, c.size < n → (x c).Hints c R) (hreads : ∀ c, (x c).Consumes c R)
    {rule : α → (c : Cursor) → c.size < n → Outcome β n}
    (hrule : ∀ a ts, R ts a → Guided (fun us => Q (ts ++ us)) (rule a)) :
    Guided Q fun c h => (x c).within h fun a c₁ h₁ _ => rule a c₁ h₁ where
  inhabited := by
    obtain ⟨ts, a, ha⟩ := hinhabited
    obtain ⟨us, b, hb⟩ := (hrule a ts ha).inhabited
    exact ⟨ts ++ us, b, hb⟩
  hints c h := (hx c h).within (hreads c) hrule

theorem Guided.andThen {x : (c : Cursor) → c.size < n → Outcome α n} (hx : Guided R x)
    (hreads : ∀ c h, (x c h).Consumes c R)
    {rule : α → (c : Cursor) → c.size < n → Outcome β n}
    (hrule : ∀ a ts, R ts a → Guided (fun us => Q (ts ++ us)) (rule a)) :
    Guided Q fun c h => (x c h).andThen rule where
  inhabited := by
    obtain ⟨ts, a, ha⟩ := hx.inhabited
    obtain ⟨us, b, hb⟩ := (hrule a ts ha).inhabited
    exact ⟨ts ++ us, b, hb⟩
  hints c h := (hx.hints c h).andThen (hreads c h) hrule

/-- A choice by the token that is read next. -/
theorem Guided.ite {k : Token.Kind} {x y : (c : Cursor) → c.size < m → Outcome α n}
    (hx : Guided R x) (hy : Guided R y) :
    Guided R fun c h => if c.kind = k then x c h else y c h where
  inhabited := hx.inhabited
  hints c h := by
    split
    · exact hx.hints c h
    · exact hy.hints c h

/-- A rule that fails at its first token, where any of the kinds could stand. -/
theorem hints_unexpected {ks : List Token.Kind} (hne : ks ≠ [])
    (h : ∀ k ∈ ks, Extends R [] k) : (failed (c.unexpected ks) c : Outcome α n).Hints c R := by
  obtain ⟨t, ts, hc⟩ : ∃ t ts, c.tokens = t :: ts := List.exists_cons_of_ne_nil (by simp [tokens])
  have hcurrent : c.current = t := current_of_tokens hc
  refine ⟨[], t, ts, hc, ?_⟩
  rw [unexpected, kind, hcurrent]
  exact .unexpected hc hne h

end Outcome

namespace Cursor

open Outcome

variable {β : Type} {n : Nat} {Q : List Token → β → Prop} {c : Cursor}

/-- Some token of the kind. -/
def sample (k : Token.Kind) : Token := ⟨k, "0", default⟩

theorem takeAny_hints {ks : List Token.Kind} (hne : ks ≠ []) (c : Cursor) :
    (c.takeAny ks).Hints c fun ts t => ts = [t] ∧ t.kind ∈ ks := by
  unfold takeAny
  split
  · trivial
  · exact hints_unexpected hne fun k hk => ⟨sample k, [], sample k, rfl, rfl, hk⟩

theorem takeAny_hints_of_kind {R : List Token → Token → Prop} {ks : List Token.Kind}
    (hks : c.kind ∈ ks) (heof : c.kind ≠ .eof) : (c.takeAny ks).Hints c R := by
  rw [takeAny, dif_pos ⟨hks, heof⟩]
  trivial

theorem takeAny_consumes_any (ks : List Token.Kind) (c : Cursor) :
    (c.takeAny ks).Consumes c fun ts t => ts = [t] ∧ t.kind ∈ ks := by
  have h := takeAny_consumes ks c
  cases htake : c.takeAny ks with
  | failed e c' => trivial
  | done t c' h' =>
      rw [htake] at h
      obtain ⟨ts, hc, rfl, hk, -⟩ := h
      exact ⟨[t], hc, rfl, hk⟩

/-- A token in front of the rest of a rule. -/
theorem take_andThen_hints {k : Token.Kind}
    {rule : Token → (c' : Cursor) → c'.size < c.size → Outcome β n}
    (hrule : ∀ t, t.kind = k → Guided (fun us => Q (t :: us)) (rule t)) :
    ((c.take k).andThen rule).Hints c Q := by
  refine (takeAny_hints (by simp) c).andThen (takeAny_consumes_any [k] c) fun t ts ht => ?_
  obtain ⟨rfl, hk⟩ := ht
  exact hrule t (List.mem_singleton.mp hk)

/-- A token in the middle of a rule. -/
theorem take_guided {k : Token.Kind}
    {rule : Token → (c' : Cursor) → c'.size < n → Outcome β n}
    (hrule : ∀ t, t.kind = k → Guided (fun us => Q (t :: us)) (rule t)) :
    Guided Q fun c h => (c.take k).within h fun t c₁ h₁ _ => rule t c₁ h₁ := by
  refine .within ⟨_, sample k, rfl, List.mem_singleton_self k⟩
    (fun c _ => takeAny_hints (by simp) c) (takeAny_consumes_any [k]) fun t ts ht => ?_
  obtain ⟨rfl, hk⟩ := ht
  exact hrule t (List.mem_singleton.mp hk)

end Cursor

namespace Grammar

open Outcome Cursor

/-! ### Expressions -/

theorem derivesFactor_sample : DerivesFactor [sample .kwTrue] (.boolean true default) :=
  .true rfl

theorem derivesAddition_sample : DerivesAddition [sample .kwTrue] (.boolean true default) :=
  .single derivesFactor_sample

theorem derivesExpr_sample : DerivesExpr [sample .kwTrue] (.boolean true default) :=
  .single derivesAddition_sample

theorem spellsByte_zero : SpellsByte "0" 0 := .plain (.digit rfl)

theorem extends_number : Extends DerivesFactor [] .number :=
  ⟨sample .number, [], .number 0 default, rfl, .number rfl spellsByte_zero⟩

theorem extends_atomStart : ∀ k ∈ atomStart, Extends DerivesFactor [] k := by
  intro k hk
  have hkinds : k = .number ∨ k = .identifier ∨ k = .kwTrue ∨ k = .kwFalse := by
    simpa [atomStart] using hk
  rcases hkinds with rfl | rfl | rfl | rfl
  · exact extends_number
  · exact ⟨sample .identifier, [], _, rfl, .var rfl⟩
  · exact ⟨sample .kwTrue, [], _, rfl, .true rfl⟩
  · exact ⟨sample .kwFalse, [], _, rfl, .false rfl⟩

theorem number_hints (c : Cursor) : (number c).Hints c DerivesFactor := by
  unfold number take takeAny
  split
  · next h =>
      rw [andThen_done]
      split
      · trivial
      · next hbyte =>
          refine ⟨[], c.current, _, tokens_eq_cons h.2, .outOfRange ?_ ?_ extends_number⟩
          · exact List.mem_singleton.mp h.1
          · intro b hb
            rw [byte?_eq_some_iff.mpr hb] at hbyte
            cases hbyte
  · refine hints_unexpected (by simp) fun k hk => ?_
    rw [List.mem_singleton.mp hk]
    exact extends_number

theorem comparison?_mem {k : Token.Kind} {comparison : Comparison}
    (h : comparison? k = some comparison) : k ∈ [Token.Kind.equal, .notEqual] := by
  unfold comparison? at h
  split at h <;> simp at h ⊢

mutual

theorem expr_hints (d : Dispatch) (c : Cursor) : (expr d c).Hints c DerivesExpr := by
  rw [expr]
  refine (addition_hints d c).andThen (addition_derives d c) fun left ts hleft => ?_
  exact ⟨⟨[], left, by simpa using .single hleft⟩,
    fun c₁ h₁ => comparisons_hints d left c₁ h₁ (.single hleft)⟩
termination_by 8 * c.size + 5

theorem comparisons_hints (d : Dispatch) (left : Expr) (c : Cursor) {n : Nat} (h : c.size < n)
    {ts : List Token} (hleft : DerivesExpr ts left) :
    (comparisons d left c h).Hints c fun us => DerivesExpr (ts ++ us) := by
  rw [comparisons]
  split
  · trivial
  · next comparison hc =>
      have heof : c.kind ≠ .eof := by
        intro heof
        rw [heof] at hc
        cases hc
      refine (takeAny_hints_of_kind (comparison?_mem hc) heof).andThen (takeAny_consumes _ c)
        fun op us hop => ?_
      obtain ⟨rfl, -, hkind⟩ := hop
      rw [← hkind] at hc
      have hop := comparison?_derives hc
      refine ⟨⟨_, _, .compare hleft hop derivesAddition_sample⟩, fun c₁ h₁ => ?_⟩
      refine (addition_hints d c₁).andThen (addition_derives d c₁) fun right vs hright => ?_
      have hboth := DerivesExpr.compare hleft hop hright
      refine ⟨⟨[], _, by simpa using hboth⟩, fun c₂ h₂ => ?_⟩
      simpa using comparisons_hints d _ c₂ _ hboth
termination_by 8 * c.size

theorem addition_hints (d : Dispatch) (c : Cursor) :
    (addition d c).Hints c DerivesAddition := by
  rw [addition]
  refine (factor_hints d c).andThen (factor_derives d c) fun left ts hleft => ?_
  refine .ite (take_guided fun op hop => ?_) (.done (by simpa using .single hleft))
  refine .within ⟨_, _, derivesAddition_sample⟩ (fun c₁ _ => addition_hints d c₁)
    (addition_derives d) fun right us hright => ?_
  exact .done (by simpa using .add hleft hop hright)
termination_by 8 * c.size + 4

theorem factor_hints (d : Dispatch) (c : Cursor) : (factor d c).Hints c DerivesFactor := by
  rw [factor]
  split
  · exact hints_unexpected (by simp [atomStart]) extends_atomStart
  · exact unaryPlus_hints d c
  · exact negation_hints d c
  · exact grouping_hints d c
  · exact atom_hints d c
termination_by 8 * c.size + 3

theorem unaryPlus_hints (d : Dispatch) (c : Cursor) :
    (unaryPlus d c).Hints c DerivesFactor := by
  rw [unaryPlus]
  refine take_andThen_hints fun op hop => ?_
  refine .within ⟨_, _, derivesFactor_sample⟩ (fun c₁ _ => factor_hints d c₁) (factor_derives d)
    fun operand ts hoperand => ?_
  exact .done (by simpa using .unaryPlus hop hoperand)
termination_by 8 * c.size + 2

theorem negation_hints (d : Dispatch) (c : Cursor) :
    (negation d c).Hints c DerivesFactor := by
  rw [negation]
  refine take_andThen_hints fun op hop => ?_
  refine .within ⟨_, _, derivesFactor_sample⟩ (fun c₁ _ => factor_hints d c₁) (factor_derives d)
    fun operand ts hoperand => ?_
  exact .done (by simpa using .negate hop hoperand)
termination_by 8 * c.size + 2

theorem grouping_hints (d : Dispatch) (c : Cursor) :
    (grouping d c).Hints c DerivesFactor := by
  rw [grouping]
  refine take_andThen_hints fun lp hlp => ?_
  refine .within ⟨_, _, derivesExpr_sample⟩ (fun c₁ _ => expr_hints d c₁) (expr_derives d)
    fun inner ts hinner => ?_
  refine take_guided fun rp hrp => ?_
  exact .done (.group hlp hinner hrp)
termination_by 8 * c.size + 2

theorem atom_hints (d : Dispatch) (c : Cursor) : (atom d c).Hints c DerivesFactor := by
  rw [atom]
  split
  · exact number_hints c
  · split
    · exact call_hints d c
    · exact take_andThen_hints fun x hx => .done (.var hx)
  · exact take_andThen_hints fun t ht => .done (.true ht)
  · exact take_andThen_hints fun t ht => .done (.false ht)
  · exact hints_unexpected (by simp [atomStart]) extends_atomStart
termination_by 8 * c.size + 2

theorem call_hints (d : Dispatch) (c : Cursor) : (call d c).Hints c DerivesFactor := by
  rw [call]
  refine take_andThen_hints fun callee hcallee => ?_
  refine take_guided fun lp hlp => ?_
  refine .andThen ⟨⟨[], [], .inl ⟨rfl, rfl⟩⟩, fun c₁ h₁ => argumentList_hints d c₁ h₁⟩
    (fun c₁ h₁ => argumentList_derives d c₁ h₁) fun args ts hargs => ?_
  refine take_guided fun rp hrp => ?_
  rcases hargs with ⟨rfl, rfl⟩ | hargs
  · exact .done (.callNone hcallee hlp hrp)
  · exact .done (.call hcallee hlp hargs hrp)
termination_by 8 * c.size + 1

theorem argumentList_hints (d : Dispatch) (c : Cursor) {n : Nat} (h : c.size < n) :
    (argumentList d c h).Hints c
      fun ts args => (ts = [] ∧ args = []) ∨ DerivesArguments ts args := by
  rw [argumentList]
  split
  · trivial
  · refine (arguments_hints d c).within (arguments_derives d c) fun args ts hargs => ?_
    exact .done (.inr (by simpa using hargs))
termination_by 8 * c.size + 7

theorem arguments_hints (d : Dispatch) (c : Cursor) :
    (arguments d c).Hints c DerivesArguments := by
  rw [arguments]
  refine (expr_hints d c).andThen (expr_derives d c) fun first ts hfirst => ?_
  refine .ite (take_guided fun comma hcomma => ?_) (.done (by simpa using .single hfirst))
  refine .within ⟨_, _, .single derivesExpr_sample⟩ (fun c₁ _ => arguments_hints d c₁)
    (arguments_derives d) fun more us hmore => ?_
  exact .done (by simpa using .cons hfirst hcomma hmore)
termination_by 8 * c.size + 6

end

/-! ### Statements -/

theorem derivesType_sample : DerivesType (sample .kwU8) .u8 := .u8 rfl

theorem derivesBlock_sample :
    DerivesBlock [sample .indent, sample .dedent] ⟨[], default⟩ :=
  .indented rfl .nil rfl

theorem type_hints (c : Cursor) :
    (type c).Hints c fun ts ty => ∃ t, ts = [t] ∧ DerivesType t ty := by
  unfold type
  refine (takeAny_hints (by simp [typeStart]) c).andThen (takeAny_consumes_any _ c)
    fun t ts ht => ?_
  obtain ⟨rfl, hk⟩ := ht
  exact .done ⟨t, rfl, typeOf_derives hk⟩

section

variable {β : Type} {n : Nat} {Q : List Token → β → Prop}

/-- An expression in the middle of a rule. -/
theorem expr_guided {d : Dispatch} {rule : Expr → (c : Cursor) → c.size < n → Outcome β n}
    (hrule : ∀ e ts, DerivesExpr ts e → Guided (fun us => Q (ts ++ us)) (rule e)) :
    Guided Q fun c h => (expr d c).within h fun e c₁ h₁ _ => rule e c₁ h₁ :=
  .within ⟨_, _, derivesExpr_sample⟩ (fun c _ => expr_hints d c) (expr_derives d) hrule

/-- A type in the middle of a rule. -/
theorem type_guided {rule : Ty → (c : Cursor) → c.size < n → Outcome β n}
    (hrule : ∀ ty t, DerivesType t ty → Guided (fun us => Q (t :: us)) (rule ty)) :
    Guided Q fun c h => (type c).within h fun ty c₁ h₁ _ => rule ty c₁ h₁ := by
  refine .within ⟨_, _, _, rfl, derivesType_sample⟩ (fun c _ => type_hints c) type_derives
    fun ty ts hty => ?_
  obtain ⟨t, rfl, ht⟩ := hty
  exact hrule ty t ht

end

theorem printStmt_hints (d : Dispatch) (c : Cursor) : (printStmt d c).Hints c DerivesStmt := by
  unfold printStmt
  refine take_andThen_hints fun start hstart => ?_
  refine take_guided fun lp hlp => ?_
  refine expr_guided fun value ts hvalue => ?_
  refine take_guided fun rp hrp => ?_
  refine take_guided fun nl hnl => ?_
  exact .done (.print hstart hlp hvalue hrp hnl)

theorem declareStmt_hints (d : Dispatch) (c : Cursor) :
    (declareStmt d c).Hints c DerivesStmt := by
  unfold declareStmt
  refine take_andThen_hints fun start hstart => ?_
  refine take_guided fun x hx => ?_
  refine take_guided fun colon hcolon => ?_
  refine type_guided fun ty t ht => ?_
  refine take_guided fun assign hassign => ?_
  refine expr_guided fun value ts hvalue => ?_
  refine take_guided fun nl hnl => ?_
  exact .done (.declare hstart hx hcolon ht hassign hvalue hnl)

theorem assignStmt_hints (d : Dispatch) (c : Cursor) :
    (assignStmt d c).Hints c DerivesStmt := by
  unfold assignStmt
  refine take_andThen_hints fun x hx => ?_
  refine take_guided fun assign hassign => ?_
  refine expr_guided fun value ts hvalue => ?_
  refine take_guided fun nl hnl => ?_
  exact .done (.assign hx hassign hvalue hnl)

theorem retStmt_hints (d : Dispatch) (c : Cursor) : (retStmt d c).Hints c DerivesStmt := by
  unfold retStmt
  refine take_andThen_hints fun start hstart => ?_
  refine expr_guided fun value ts hvalue => ?_
  refine take_guided fun nl hnl => ?_
  exact .done (.ret hstart hvalue hnl)

theorem evaluateStmt_hints (d : Dispatch) (c : Cursor) :
    (evaluateStmt d c).Hints c DerivesStmt := by
  unfold evaluateStmt
  refine (expr_hints d c).andThen (expr_derives d c) fun value ts hvalue => ?_
  refine take_guided fun nl hnl => ?_
  exact .done (.evaluate hvalue hnl)

mutual

theorem stmt_hints (d : Dispatch) (c : Cursor) : (stmt d c).Hints c DerivesStmt := by
  rw [stmt]
  split
  · exact ifStmt_hints d c
  · exact printStmt_hints d c
  · exact declareStmt_hints d c
  · exact retStmt_hints d c
  · split
    · exact assignStmt_hints d c
    · exact evaluateStmt_hints d c
termination_by 4 * c.size + 1

theorem ifStmt_hints (d : Dispatch) (c : Cursor) : (ifStmt d c).Hints c DerivesStmt := by
  rw [ifStmt]
  refine take_andThen_hints fun start hstart => ?_
  refine expr_guided fun condition ts hcondition => ?_
  refine take_guided fun colon hcolon => ?_
  refine take_guided fun nl hnl => ?_
  refine .within ⟨_, _, derivesBlock_sample⟩ (fun c₁ _ => block_hints d c₁) (block_derives d)
    fun body us hbody => ?_
  exact .done (by simpa using .ifThen hstart hcondition hcolon hnl hbody)
termination_by 4 * c.size

theorem block_hints (d : Dispatch) (c : Cursor) : (block d c).Hints c DerivesBlock := by
  rw [block]
  refine take_andThen_hints fun start hstart => ?_
  refine .andThen ⟨⟨[], [], .nil⟩, fun c₁ h₁ => stmts_hints d c₁ h₁⟩
    (fun c₁ h₁ => stmts_derives d c₁ h₁) fun body ts hbody => ?_
  refine take_guided fun stop hstop => ?_
  exact .done (.indented hstart hbody hstop)
termination_by 4 * c.size

theorem stmts_hints (d : Dispatch) (c : Cursor) {n : Nat} (h : c.size < n) :
    (stmts d c h).Hints c DerivesStmts := by
  rw [stmts]
  split
  · trivial
  · refine (stmt_hints d c).andThen (stmt_derives d c) fun first ts hfirst => ?_
    refine ⟨⟨[], [first], .cons hfirst .nil⟩, fun c₁ h₁ => ?_⟩
    refine (stmts_hints d c₁ _).andThen (stmts_derives d c₁ _) fun more us hmore => ?_
    exact .done (by simpa using .cons hfirst hmore)
termination_by 4 * c.size + 2

end

/-! ### Functions -/

theorem derivesParameters_sample : DerivesParameters
    [sample .identifier, sample .colon, sample .kwU8] [⟨"0", .u8, default⟩] :=
  .single rfl rfl derivesType_sample

theorem parameters_hints (c : Cursor) : (parameters c).Hints c DerivesParameters := by
  rw [parameters]
  refine take_andThen_hints fun x hx => ?_
  refine take_guided fun colon hcolon => ?_
  refine type_guided fun ty t ht => ?_
  refine .ite (take_guided fun comma hcomma => ?_) (.done (.single hx hcolon ht))
  refine .within ⟨_, _, derivesParameters_sample⟩ (fun c₁ _ => parameters_hints c₁)
    parameters_derive fun more us hmore => ?_
  exact .done (by simpa using .cons hx hcolon ht hcomma hmore)
termination_by c.size

theorem parameterList_hints (c : Cursor) {n : Nat} (h : c.size < n) :
    (parameterList c h).Hints c DerivesParameterList := by
  unfold parameterList
  split
  · trivial
  · refine (parameters_hints c).within (parameters_derive c) fun ps ts hps => ?_
    exact .done (by simpa using .some hps)

theorem function_hints (d : Dispatch) (c : Cursor) :
    (function d c).Hints c DerivesFunction := by
  unfold function
  refine take_andThen_hints fun start hstart => ?_
  refine take_guided fun name hname => ?_
  refine take_guided fun lp hlp => ?_
  refine .andThen ⟨⟨[], [], .none⟩, fun c h => parameterList_hints c h⟩
    (fun c h => parameterList_derives c h) fun ps ts hps => ?_
  refine take_guided fun rp hrp => ?_
  refine take_guided fun arrow harrow => ?_
  refine type_guided fun returns t ht => ?_
  refine take_guided fun colon hcolon => ?_
  refine take_guided fun nl hnl => ?_
  refine .within ⟨_, _, derivesBlock_sample⟩ (fun c _ => block_hints d c) (block_derives d)
    fun body us hbody => ?_
  exact .done (by simpa using .define hstart hname hlp hps hrp harrow ht hcolon hnl hbody)

theorem functions_hints (d : Dispatch) (c : Cursor) {n : Nat} (h : c.size < n) :
    (functions d c h).Hints c DerivesFunctions := by
  rw [functions]
  split
  · trivial
  · refine (function_hints d c).andThen (function_derives d c) fun first ts hfirst => ?_
    refine ⟨⟨[], [first], .cons hfirst .nil⟩, fun c₁ h₁ => ?_⟩
    refine (functions_hints d c₁ _).andThen (functions_derive d c₁ _) fun more us hmore => ?_
    exact .done (by simpa using .cons hfirst hmore)
termination_by c.size

end Grammar

end Octet
