import Octet.Proofs.Lowering.Emission
import Octet.Proofs.Typing.Rules
import Octet.Proofs.Z80.Execution
import Octet.Proofs.Z80.Reading

/-!
The labels of generated code. They come from two sources, the names of the
functions and a counter, and their first characters tell the two apart from
each other and from the label at the start. A piece of code has those numbers
that the counter ran through while the piece was written, so that pieces one
behind the other have none in common.

The same walk over the code shows that it can be read back from its text, if
the functions of the program have names that are words.
-/

namespace Octet

open Z80 Gen

/-! ### Names -/

/-- The label has the number. -/
def IsNumbered (l : String) (n : Nat) : Prop := l = numbered "if_end" n ∨ l = numbered "cmp_end" n

theorem numbered_injective {stem : String} {m n : Nat} (h : numbered stem m = numbered stem n) :
    m = n := by
  have hdigits : Nat.toDigits 10 m = Nat.toDigits 10 n := by
    have hlists := congrArg String.toList h
    simpa [numbered, Nat.toString_eq_ofList_toDigits] using hlists
  rw [← decimal_toDigits m, hdigits, decimal_toDigits]

theorem head?_numbered_if (n : Nat) : (numbered "if_end" n).toList.head? = some 'i' := by
  simp [numbered, String.toList_append]

theorem head?_numbered_cmp (n : Nat) : (numbered "cmp_end" n).toList.head? = some 'c' := by
  simp [numbered, String.toList_append]

theorem head?_functionLabel (x : String) : (functionLabel x).toList.head? = some 'f' := by
  simp [functionLabel, String.toList_append]

theorem functionLabel_injective {x y : String} (h : functionLabel x = functionLabel y) : x = y := by
  have hlists := congrArg String.toList h
  simpa [functionLabel, String.toList_append, String.toList_inj] using hlists

namespace IsNumbered

variable {l : String} {m n : Nat}

theorem unique (hm : IsNumbered l m) (hn : IsNumbered l n) : m = n := by
  rcases hm with rfl | rfl <;> rcases hn with h | h
  · exact numbered_injective h
  · have hhead := congrArg (fun s => s.toList.head?) h
    simp only [head?_numbered_if, head?_numbered_cmp] at hhead
    cases hhead
  · have hhead := congrArg (fun s => s.toList.head?) h
    simp only [head?_numbered_if, head?_numbered_cmp] at hhead
    cases hhead
  · exact numbered_injective h

theorem head? (h : IsNumbered l n) : l.toList.head? = some 'i' ∨ l.toList.head? = some 'c' := by
  rcases h with rfl | rfl
  · exact .inl (head?_numbered_if n)
  · exact .inr (head?_numbered_cmp n)

theorem isWord (h : IsNumbered l n) : IsWord l := by
  have hstem {stem : String} (hs : IsWord (stem ++ "_")) : IsWord (numbered stem n) :=
    hs.append (isWord_toString n)
  rcases h with rfl | rfl
  · exact hstem (isWord_of_all rfl)
  · exact hstem (isWord_of_all rfl)

end IsNumbered

theorem isWord_functionLabel {x : String} (h : IsWord x) : IsWord (functionLabel x) := by
  have hstem : IsWord "fn_" := isWord_of_all rfl
  exact hstem.append h

/-! ### Pieces of code -/

/-- The code has labels for these functions and for the numbers from one state
of the counter up to another, no two of them the same, and it can be read. -/
structure Tidy (names : List String) (g g' : Generator) (code : List Line) : Prop where
  counted : g.labels ≤ g'.labels
  labels : ∀ l ∈ labels code, (∃ x ∈ names, l = functionLabel x) ∨
    ∃ n, g.labels ≤ n ∧ n < g'.labels ∧ IsNumbered l n
  nodup : (Z80.labels code).Nodup
  legible : ∀ line ∈ code, line.Legible

namespace Tidy

variable {names names₁ names₂ : List String} {g g₁ g' : Generator} {code c₁ c₂ : List Line}

theorem append (h₁ : Tidy names₁ g g₁ c₁) (h₂ : Tidy names₂ g₁ g' c₂)
    (hnames : (names₁ ++ names₂).Nodup) : Tidy (names₁ ++ names₂) g g' (c₁ ++ c₂) where
  counted := h₁.counted.trans h₂.counted
  labels := by
    intro l hl
    rw [labels_append, List.mem_append] at hl
    have hcounted₁ := h₁.counted
    have hcounted₂ := h₂.counted
    rcases hl with hl | hl
    · rcases h₁.labels l hl with ⟨x, hx, rfl⟩ | ⟨n, hlow, hhigh, hn⟩
      · exact .inl ⟨x, List.mem_append_left _ hx, rfl⟩
      · exact .inr ⟨n, hlow, by omega, hn⟩
    · rcases h₂.labels l hl with ⟨x, hx, rfl⟩ | ⟨n, hlow, hhigh, hn⟩
      · exact .inl ⟨x, List.mem_append_right _ hx, rfl⟩
      · exact .inr ⟨n, by omega, hhigh, hn⟩
  nodup := by
    rw [labels_append]
    refine h₁.nodup.append h₂.nodup fun l hl₁ hl₂ => ?_
    -- A name and a number never make the same label, and the numbers of the second piece begin
    -- where those of the first one end.
    rcases h₁.labels l hl₁ with ⟨x, hx, rfl⟩ | ⟨m, -, hm, hnumber⟩ <;>
      rcases h₂.labels _ hl₂ with ⟨y, hy, heq⟩ | ⟨n, hn, -, hnumber'⟩
    · obtain rfl := functionLabel_injective heq
      exact List.disjoint_of_nodup_append hnames hx hy
    · have hhead := hnumber'.head?
      simp [head?_functionLabel] at hhead
    · have hhead := hnumber.head?
      simp [heq, head?_functionLabel] at hhead
    · have heq := hnumber.unique hnumber'
      omega
  legible := by
    intro line hline
    exact (List.mem_append.mp hline).elim (h₁.legible line) (h₂.legible line)

/-- A piece behind another one in which there are no names of functions. -/
theorem andThen (h₁ : Tidy [] g g₁ c₁) (h₂ : Tidy [] g₁ g' c₂) : Tidy [] g g' (c₁ ++ c₂) :=
  h₁.append h₂ List.nodup_nil

theorem nil : Tidy [] g g [] := ⟨Nat.le_refl _, by simp, List.nodup_nil, by simp⟩

theorem instr {i : Instr} (hi : i.Legible) (h : Tidy names g g' code) :
    Tidy names g g' (.instr i :: code) :=
  { h with
    legible := by
      rw [List.forall_mem_cons]
      exact ⟨hi, h.legible⟩ }

theorem pops (n : Nat) : Tidy [] g g (List.replicate n (.instr .popBC)) := by
  induction n with
  | zero => exact nil
  | succ n ih => exact ih.instr trivial

end Tidy

/-! ### Functions that are called -/

namespace Expr

mutual

def callees : Expr → List String
  | number _ _ | boolean _ _ | var _ _ => []
  | negate e _ => e.callees
  | add l r _ | compare _ l r _ => l.callees ++ r.callees
  | call f args _ => f :: calleesAll args

def calleesAll : List Expr → List String
  | [] => []
  | a :: args => a.callees ++ calleesAll args

end

end Expr

namespace Stmt

mutual

def callees : Stmt → List String
  | block body _ => calleesAll body
  | ifThen condition consequence _ => condition.callees ++ consequence.callees
  | print value _ | declare _ _ value _ | assign _ value _ | ret value _ | evaluate value =>
      value.callees

def calleesAll : List Stmt → List String
  | [] => []
  | s :: body => s.callees ++ calleesAll body

end

end Stmt

theorem Names.mem_of_ofList {α : Type} {name : α → String} {type : α → Ty} {items : List α}
    {x : String} {t : Ty} (h : Names.ofList name type items x = some t) :
    ∃ a ∈ items, name a = x ∧ type a = t := by
  obtain ⟨a, ha, htype⟩ := Option.map_eq_some_iff.mp h
  exact ⟨a, List.mem_of_find?_eq_some ha, by simpa using List.find?_some ha, htype⟩

/-- The functions of the context have names of some kind. -/
def Context.Callable (P : String → Prop) (Γ : Context) : Prop :=
  ∀ x parameters returns, Γ.type? x = some (.function parameters returns) → P x

theorem Context.Callable.empty {P : String → Prop} {Γ : Context} (h : Γ.Callable P) :
    Context.Callable P (Names.empty :: Γ) :=
  h

theorem Context.Callable.bind {P : String → Prop} {names : Names} {Γ : Context}
    (h : Context.Callable P (names :: Γ)) {x : String} {t : Ty} (ht : t.Concrete) :
    Context.Callable P (names.bind x t :: Γ) := by
  intro y parameters returns hy
  by_cases hyx : y = x
  · simp only [Context.type?, Names.bind, hyx, if_true, Option.some.injEq] at hy
    rw [hy] at ht
    exact ht.elim
  · refine h y parameters returns ?_
    simpa only [Context.type?, Names.bind, hyx, if_false] using hy

namespace Expr

variable {P : String → Prop} {Γ : Context}

mutual

theorem HasType.callees (hΓ : Γ.Callable P) : (e : Expr) → {t : Ty} → e.HasType Γ t →
    ∀ x ∈ e.callees, P x
  | number _ _, _, _ | boolean _ _, _, _ | var _ _, _, _ => by simp [Expr.callees]
  | negate e _, _, .negate he _ => HasType.callees hΓ e he
  | add l r _, _, .add hl hr _ | compare _ l r _, _, .compare hl hr _ => by
      simp only [Expr.callees, List.mem_append, or_imp, forall_and]
      exact ⟨HasType.callees hΓ l hl, HasType.callees hΓ r hr⟩
  | call f args _, _, .call hf hargs => by
      simp only [Expr.callees, List.mem_cons, forall_eq_or_imp]
      exact ⟨hΓ f _ _ hf, Fit.callees hΓ args hargs⟩

theorem Fit.callees (hΓ : Γ.Callable P) : (args : List Expr) → {ts : List Ty} → Fit Γ args ts →
    ∀ x ∈ calleesAll args, P x
  | [], _, _ => by simp [calleesAll]
  | a :: args, _, .cons ha _ hargs => by
      simp only [calleesAll, List.mem_append, or_imp, forall_and]
      exact ⟨HasType.callees hΓ a ha, Fit.callees hΓ args hargs⟩

end

end Expr

namespace Stmt

variable {P : String → Prop} {returns : Ty}

theorem Typed.callable {Γ Γ' : Context} (hΓ : Γ.Callable P) : {s : Stmt} →
    s.Typed returns Γ Γ' → Γ'.Callable P
  | _, .block _ | _, .print _ | _, .assign _ _ _ _ | _, .ret _ _ | _, .evaluate _ => hΓ
  | _, .ifThen _ hs => hs.callable hΓ
  | _, .declare _ _ ht _ => hΓ.bind ht

mutual

/-- A typed statement calls functions of its context only. -/
theorem Typed.callees : (s : Stmt) → {Γ Γ' : Context} → Γ.Callable P → s.Typed returns Γ Γ' →
    ∀ x ∈ s.callees, P x
  | block body _, _, _, hΓ, .block hbody =>
      TypedAll.callees body hΓ.empty hbody
  | ifThen condition consequence _, _, _, hΓ, .ifThen hcondition hs => by
      simp only [Stmt.callees, List.mem_append, or_imp, forall_and]
      exact ⟨Expr.HasType.callees hΓ condition hcondition, Typed.callees consequence hΓ hs⟩
  | print value _, _, _, hΓ, .print h => Expr.HasType.callees hΓ value h
  | declare _ _ value _, _, _, hΓ, .declare h _ _ _ => Expr.HasType.callees hΓ value h
  | assign _ value _, _, _, hΓ, .assign h _ _ _ => Expr.HasType.callees hΓ value h
  | ret value _, _, _, hΓ, .ret h _ => Expr.HasType.callees hΓ value h
  | evaluate value, _, _, hΓ, .evaluate h => Expr.HasType.callees hΓ value h

theorem TypedAll.callees : (body : List Stmt) → {Γ Γ' : Context} → Γ.Callable P →
    TypedAll returns Γ body Γ' → ∀ x ∈ calleesAll body, P x
  | [], _, _, _, _ => by simp [calleesAll]
  | s :: body, _, _, hΓ, .cons hs hbody => by
      simp only [calleesAll, List.mem_append, or_imp, forall_and]
      exact ⟨Typed.callees s hΓ hs, TypedAll.callees body (hs.callable hΓ) hbody⟩

end

end Stmt

/-! ### Code -/

theorem Comparison.lower_tidy {c : Comparison} {g g' : Generator} {code : List Line} {u : Unit}
    (h : c.lower.Emits g code u g') : Tidy [] g g' code := by
  obtain ⟨rfl, rfl⟩ := Comparison.emits h
  have hnumber : IsNumbered (numbered "cmp_end" g.labels) g.labels := .inr rfl
  have hlabel : Tidy [] g { g with labels := g.labels + 1 }
      [.label (numbered "cmp_end" g.labels)] := by
    refine ⟨Nat.le_succ _, fun l hl => ?_, List.nodup_singleton _,
      List.forall_mem_singleton.mpr hnumber.isWord⟩
    obtain rfl := List.mem_singleton.mp hl
    exact .inr ⟨g.labels, Nat.le_refl _, Nat.lt_succ_self _, hnumber⟩
  exact .instr trivial (.instr trivial (.instr hnumber.isWord (.instr trivial hlabel)))

namespace Expr

mutual

theorem lower_tidy : (e : Expr) → {g g' : Generator} → {code : List Line} → {u : Unit} →
    e.lower.Emits g code u g' → (∀ x ∈ e.callees, IsWord x) → Tidy [] g g' code
  | number n p, g, g', code, u, h, hwords => by
      obtain ⟨rfl, rfl⟩ := instrs_emits.mp h
      exact .instr trivial .nil
  | boolean b p, g, g', code, u, h, hwords => by
      obtain ⟨rfl, rfl⟩ := instrs_emits.mp h
      exact .instr trivial .nil
  | var x p, g, g', code, u, h, hwords => by
      obtain ⟨d, -, rfl, rfl⟩ := emits_var h
      exact .instr trivial .nil
  | negate e p, g, g', code, u, h, hwords => by
      obtain ⟨c, he, rfl⟩ := emits_negate h
      exact (lower_tidy e he hwords).andThen (.instr trivial .nil)
  | add l r p, g, g', code, u, h, hwords => by
      obtain ⟨c₁, g₁, c₂, hl, hr, rfl⟩ := emits_add h
      have hl := lower_tidy l hl fun x hx => hwords x (List.mem_append_left _ hx)
      have hr := lower_tidy r hr fun x hx => hwords x (List.mem_append_right _ hx)
      exact hl.andThen (.instr trivial (hr.andThen (.instr trivial (.instr trivial .nil))))
  | compare c l r p, g, g', code, u, h, hwords => by
      obtain ⟨c₁, g₁, c₂, g₂, c₃, hl, hr, hc, rfl⟩ := emits_compare h
      have hl := lower_tidy l hl fun x hx => hwords x (List.mem_append_left _ hx)
      have hr := lower_tidy r hr fun x hx => hwords x (List.mem_append_right _ hx)
      exact hl.andThen (.instr trivial (hr.andThen (.instr trivial (Comparison.lower_tidy hc))))
  | call f args p, g, g', code, u, h, hwords => by
      obtain ⟨c, hargs, rfl⟩ := emits_call h
      have hf := isWord_functionLabel (hwords f (List.mem_cons_self ..))
      have hargs := lowerArguments_tidy args hargs fun x hx => hwords x (List.mem_cons_of_mem _ hx)
      exact hargs.andThen (.instr hf (.pops _))

theorem lowerArguments_tidy : (args : List Expr) → {g g' : Generator} → {code : List Line} →
    {u : Unit} → (lowerArguments args).Emits g code u g' → (∀ x ∈ calleesAll args, IsWord x) →
    Tidy [] g g' code
  | [], g, g', code, u, h, hwords => by
      obtain ⟨rfl, -, rfl⟩ := pure_emits.mp h
      exact .nil
  | a :: args, g, g', code, u, h, hwords => by
      obtain ⟨c₁, g₁, c₂, ha, hargs, rfl⟩ := emits_argument h
      have ha := lower_tidy a ha fun x hx => hwords x (List.mem_append_left _ hx)
      have hargs := lowerArguments_tidy args hargs fun x hx => hwords x (List.mem_append_right _ hx)
      exact ha.andThen (.instr trivial hargs)

end

end Expr

namespace Stmt

theorem leave_tidy {g : Generator} : Tidy [] g g leave :=
  .instr trivial (.instr trivial (.instr trivial .nil))

/-- The label behind a condition has its number from before the condition. -/
theorem ifThen_tidy {g g' : Generator} {code : List Line}
    (h : Tidy [] { g with labels := g.labels + 1 } g' code) :
    Tidy [] g g' (code ++ [.label (numbered "if_end" g.labels)]) := by
  have hnumber : IsNumbered (numbered "if_end" g.labels) g.labels := .inl rfl
  have hcounted : g.labels + 1 ≤ g'.labels := h.counted
  have hlabels (l : String) (hl : l ∈ labels code) :
      ∃ n, g.labels + 1 ≤ n ∧ n < g'.labels ∧ IsNumbered l n :=
    (h.labels l hl).resolve_left (by simp)
  refine ⟨by omega, ?_, ?_, ?_⟩
  · intro l hl
    rw [labels_append, List.mem_append] at hl
    rcases hl with hl | hl
    · obtain ⟨n, hlow, hhigh, hn⟩ := hlabels l hl
      exact .inr ⟨n, by omega, hhigh, hn⟩
    · obtain rfl := List.mem_singleton.mp hl
      exact .inr ⟨g.labels, Nat.le_refl _, hcounted, hnumber⟩
  · rw [labels_append]
    refine h.nodup.append (List.nodup_singleton _) fun l hl hl' => ?_
    obtain rfl := List.mem_singleton.mp hl'
    obtain ⟨n, hlow, -, hn⟩ := hlabels _ hl
    have heq := hnumber.unique hn
    omega
  · intro line hline
    rcases List.mem_append.mp hline with hline | hline
    · exact h.legible line hline
    · obtain rfl := List.mem_singleton.mp hline
      exact hnumber.isWord

mutual

theorem lower_tidy : (s : Stmt) → {g g' : Generator} → {code : List Line} → {u : Unit} →
    s.lower.Emits g code u g' → (∀ x ∈ s.callees, IsWord x) → Tidy [] g g' code
  | block body p, g, g', code, u, h, hwords => by
      obtain ⟨c, g₁, hbody, rfl, rfl⟩ := emits_block h
      have hbody := lowerAll_tidy body hbody hwords
      have hpops : Tidy [] g₁ g₁ _ := .pops (declaredAll body).length
      exact { hbody.andThen hpops with }
  | ifThen condition consequence p, g, g', code, u, h, hwords => by
      obtain ⟨c₁, g₁, c₂, hcondition, hconsequence, rfl⟩ := emits_ifThen h
      have hnumber : IsNumbered (numbered "if_end" g.labels) g.labels := .inl rfl
      have hcondition :=
        Expr.lower_tidy condition hcondition fun x hx => hwords x (List.mem_append_left _ hx)
      have hconsequence :=
        lower_tidy consequence hconsequence fun x hx => hwords x (List.mem_append_right _ hx)
      have hjump : Tidy [] g₁ g' (.instr (.compare 1) ::
          .instr (.jumpNZ (numbered "if_end" g.labels)) :: c₂) :=
        .instr trivial (.instr hnumber.isWord hconsequence)
      simpa using ifThen_tidy (hcondition.andThen hjump)
  | print value p, g, g', code, u, h, hwords => by
      obtain ⟨c, hvalue, rfl⟩ := emits_print h
      exact (Expr.lower_tidy value hvalue hwords).andThen (.instr trivial .nil)
  | declare x t value p, g, g', code, u, h, hwords => by
      obtain ⟨c, g₁, hvalue, -, rfl, rfl⟩ := emits_declare h
      have hpush : Tidy [] g₁ g₁ [.instr .pushAF] := .instr trivial .nil
      exact { (Expr.lower_tidy value hvalue hwords).andThen hpush with }
  | assign x value p, g, g', code, u, h, hwords => by
      obtain ⟨c, d, hvalue, -, rfl⟩ := emits_assign h
      exact (Expr.lower_tidy value hvalue hwords).andThen (.instr trivial .nil)
  | ret value p, g, g', code, u, h, hwords => by
      obtain ⟨c, hvalue, rfl⟩ := emits_ret h
      exact (Expr.lower_tidy value hvalue hwords).andThen leave_tidy
  | evaluate value, g, g', code, u, h, hwords => Expr.lower_tidy value h hwords

theorem lowerAll_tidy : (body : List Stmt) → {g g' : Generator} → {code : List Line} →
    {u : Unit} → (lowerAll body).Emits g code u g' → (∀ x ∈ calleesAll body, IsWord x) →
    Tidy [] g g' code
  | [], g, g', code, u, h, hwords => by
      obtain ⟨rfl, -, rfl⟩ := pure_emits.mp h
      exact .nil
  | s :: body, g, g', code, u, h, hwords => by
      obtain ⟨c₁, g₁, c₂, hs, hbody, rfl⟩ := emits_cons h
      have hs := lower_tidy s hs fun x hx => hwords x (List.mem_append_left _ hx)
      have hbody := lowerAll_tidy body hbody fun x hx => hwords x (List.mem_append_right _ hx)
      exact hs.andThen hbody

end

end Stmt

/-! ### Programs -/

namespace Function

theorem lower_tidy {f : Function} {g g' : Generator} {code : List Line} {u : Unit}
    (h : f.lower.Emits g code u g') (hname : IsWord f.name)
    (hwords : ∀ x ∈ Stmt.calleesAll f.body.body, IsWord x) : Tidy [f.name] g g' code := by
  obtain ⟨frame, c, -, hbody, rfl⟩ := f.emits h
  have hbody := (Stmt.lower_tidy f.body.toStmt hbody hwords).andThen Stmt.leave_tidy
  have hlabel : Tidy [f.name] g g [.label (functionLabel f.name)] := by
    refine ⟨Nat.le_refl _, fun l hl => ?_, List.nodup_singleton _,
      List.forall_mem_singleton.mpr (isWord_functionLabel hname)⟩
    exact .inl ⟨f.name, List.mem_singleton_self _, List.mem_singleton.mp hl⟩
  have hcode : Tidy [] g g' _ := { hbody with }
  exact hlabel.append (.instr trivial (.instr trivial (.instr trivial hcode))) (by simp)

theorem lowerAll_tidy : (fs : List Function) → {g g' : Generator} → {code : List Line} →
    {u : Unit} → (lowerAll fs).Emits g code u g' → (fs.map Function.name).Nodup →
    (∀ f ∈ fs, IsWord f.name) → (∀ f ∈ fs, ∀ x ∈ Stmt.calleesAll f.body.body, IsWord x) →
    Tidy (fs.map Function.name) g g' code
  | [], g, g', code, u, h, _, _, _ => by
      obtain ⟨rfl, -, rfl⟩ := pure_emits.mp h
      exact .nil
  | f :: fs, g, g', code, u, h, hnodup, hnames, hwords => by
      obtain ⟨c₁, g₁, c₂, hf, hfs, rfl⟩ := emits_cons h
      have hf := lower_tidy hf (hnames f (List.mem_cons_self ..)) (hwords f (List.mem_cons_self ..))
      have hfs := lowerAll_tidy fs hfs (List.nodup_cons.mp hnodup).2
        (fun f hf => hnames f (List.mem_cons_of_mem _ hf))
        (fun f hf => hwords f (List.mem_cons_of_mem _ hf))
      have hboth := hf.append hfs hnodup
      exact { hboth with legible := by simpa [Line.Legible] using hboth.legible }

end Function

namespace Program

variable {p : Program} {snapshot : Option String} {lines : List Line}

/-- A typed program calls functions of its own. -/
theorem WellTyped.callees (h : p.WellTyped) {f : Function} (hf : f ∈ p.functions) :
    ∀ x ∈ Stmt.calleesAll f.body.body, ∃ f' ∈ p.functions, f'.name = x := by
  obtain ⟨Γ, hbody⟩ := (h.functions f hf).body
  refine Stmt.TypedAll.callees f.body.body (Context.Callable.empty ?_) hbody
  intro x parameters returns hx
  cases hparameter : Names.ofParameters f.parameters x with
  | some t =>
      obtain ⟨a, ha, -, htype⟩ := Names.mem_of_ofList hparameter
      have hconcrete := (h.functions f hf).parameters a ha
      simp only [Context.type?, hparameter, Option.some.injEq] at hx
      rw [htype, hx] at hconcrete
      exact hconcrete.elim
  | none =>
      cases hfunction : Names.ofFunctions p.functions x with
      | none => simp [Context.type?, hparameter, hfunction] at hx
      | some t =>
          obtain ⟨f', hf', hname, -⟩ := Names.mem_of_ofList hfunction
          exact ⟨f', hf', hname⟩

theorem labels_lines (snapshot : Option String) (p : Program) (c : List Line) :
    labels (header snapshot ++ (p.start ++ (c ++ trailer snapshot))) = "start" :: labels c := by
  have hheader : labels (header snapshot) = [] := by cases snapshot <;> rfl
  have htrailer : labels (trailer snapshot) = [] := by cases snapshot <;> rfl
  have hstart : labels p.start = ["start"] := by
    unfold start
    split <;> rfl
  rw [labels_append, labels_append, labels_append, hheader, htrailer, hstart, List.append_nil]
  rfl

/-- The code of a typed program has no label twice and can be read, if its names
are words. -/
theorem lines_tidy (h : p.WellTyped) (hnames : ∀ f ∈ p.functions, IsWord f.name)
    (hsnapshot : ∀ name, snapshot = some name → '\n' ∉ name.toList)
    (hlines : p.assemblyLines snapshot = .ok lines) :
    (labels lines).Nodup ∧ ∀ line ∈ lines, line.Legible := by
  obtain ⟨g', hemits⟩ := assemblyLines_ok hlines
  obtain ⟨-, c, hfunctions, rfl⟩ := emits hemits
  have htidy := Function.lowerAll_tidy p.functions hfunctions h.distinct hnames
    fun f hf x hx => by
      obtain ⟨f', hf', rfl⟩ := h.callees hf x hx
      exact hnames f' hf'
  refine ⟨?_, ?_⟩
  · rw [labels_lines, List.nodup_cons]
    refine ⟨fun hmem => ?_, htidy.nodup⟩
    have hstart : "start".toList.head? = some 's' := rfl
    rcases htidy.labels _ hmem with ⟨x, -, heq⟩ | ⟨n, -, -, hn⟩
    · rw [heq, head?_functionLabel] at hstart
      cases hstart
    · rcases hn.head? with hhead | hhead <;> cases hhead
  · simp only [List.forall_mem_append]
    refine ⟨?_, ?_, htidy.legible, ?_⟩
    · cases snapshot <;> simp [header, Line.Legible]
    · have hmain : (Line.instr (.call (functionLabel "main"))).Legible :=
        isWord_functionLabel (isWord_of_all rfl)
      have hlabel : (Line.label "start").Legible := isWord_of_all rfl
      have hret : (Line.instr .ret).Legible := trivial
      unfold start
      split
      · simpa using ⟨hlabel, hmain, hret⟩
      · simpa using ⟨hlabel, hret⟩
    · cases snapshot with
      | none => simp [trailer]
      | some name => simpa [trailer, Line.Legible] using hsnapshot name rfl

end Program

end Octet
