import Octet.Proofs.Result
import Octet.Proofs.Typing.Checks

/-!
The types that the checker finds for expressions are those that the rules give
them. Both sides only read the context, so this is one equivalence, by
recursion on the expression.
-/

namespace Octet

open Result

/-! ### Types -/

namespace Ty

theorem isNumerical_iff {t : Ty} : t.isNumerical = true ↔ t.Numerical := by
  constructor
  · intro h
    cases t <;> simp [isNumerical] at h <;> constructor
  · intro h
    cases h <;> rfl

theorem accepts_iff {t s : Ty} : t.accepts s = true ↔ t.Accepts s := by
  simp only [accepts, Bool.or_eq_true, Bool.and_eq_true, beq_iff_eq, isNumerical_iff]
  constructor
  · rintro (rfl | ⟨rfl, h⟩)
    · exact .same t
    · exact .literal h
  · intro h
    cases h with
    | same => exact .inl rfl
    | literal h => exact .inr ⟨rfl, h⟩

theorem initialisedBy_iff {t s : Ty} : t.initialisedBy s = true ↔ t.Initialises s := by
  simp only [initialisedBy, Bool.or_eq_true, Bool.and_eq_true, accepts_iff, isNumerical_iff]
  constructor
  · rintro (h | ⟨ht, hs⟩)
    · exact .accepted h
    · exact .number ht hs
  · intro h
    cases h with
    | accepted h => exact .inl h
    | number ht hs => exact .inr ⟨ht, hs⟩

theorem comparable_iff {s t : Ty} : s.comparable t = true ↔ s.Accepts t ∨ t.Accepts s := by
  simp [comparable, accepts_iff]

theorem sum_iff {s t u : Ty} :
    (s.Numerical ∧ t.Numerical ∧ s.sum? t = some u) ↔ s.Sum t u := by
  constructor
  · rintro ⟨hs, ht, h⟩
    cases hs <;> cases ht <;> simp [sum?] at h <;> subst h
    · exact .same .u8
    · exact .literalRight .u8
    · exact .same .i8
    · exact .literalRight .i8
    · exact .literalLeft .u8
    · exact .literalLeft .i8
    · exact .same .literal
  · intro h
    cases h with
    | same h => cases h <;> exact ⟨by constructor, by constructor, rfl⟩
    | literalLeft h => exact ⟨.literal, h, rfl⟩
    | literalRight h => cases h <;> exact ⟨by constructor, .literal, rfl⟩

end Ty

/-! ### Expressions -/

namespace Expr

theorem variableType_ok {env : Environment} {x : String} {p : Position} {t : Ty} :
    variableType env x p = .ok t ↔ env.context.type? x = some t ∧ ¬ t.IsFunction := by
  unfold variableType
  rw [bind_ok]
  simp only [Environment.variableType_ok]
  constructor
  · rintro ⟨s, hs, h⟩
    cases s <;> simp at h <;> subst h <;> exact ⟨hs, id⟩
  · rintro ⟨ht, hf⟩
    refine ⟨t, ht, ?_⟩
    cases t <;> first | rfl | exact absurd trivial hf

/-- Two numbers can be added if their types have a sum. -/
theorem typeIn_add_ok {env : Environment} {l r : Expr} {p : Position} {u : Ty} :
    (add l r p).typeIn env = .ok u ↔
      ∃ s t, l.typeIn env = .ok s ∧ r.typeIn env = .ok t ∧ s.Sum t u := by
  simp only [typeIn, bind_ok]
  constructor
  · rintro ⟨s, hs, t, ht, h⟩
    split at h
    · simp at h
    · split at h
      · simp at h
      · rename_i hns hnt
        simp only [Bool.not_eq_true, Bool.not_eq_false', Ty.isNumerical_iff] at hns hnt
        cases hsum : s.sum? t with
        | none => simp [hsum] at h
        | some w =>
            simp only [hsum, Except.ok.injEq] at h
            exact ⟨s, t, hs, ht, Ty.sum_iff.mp ⟨hns, hnt, h ▸ hsum⟩⟩
  · rintro ⟨s, t, hs, ht, hsum⟩
    obtain ⟨hns, hnt, hsum⟩ := Ty.sum_iff.mpr hsum
    refine ⟨s, hs, t, ht, ?_⟩
    simp [Ty.isNumerical_iff.mpr hns, Ty.isNumerical_iff.mpr hnt, hsum]

/-- A call has the type that its function returns, if its arguments are as many
as the parameters and fit them. -/
theorem typeIn_call_ok {env : Environment} {f : String} {args : List Expr} {p : Position}
    {t : Ty} :
    (call f args p).typeIn env = .ok t ↔
      ∃ parameters, env.context.type? f = some (.function parameters t) ∧
        args.length = parameters.length ∧ checkArguments env args parameters = .ok () := by
  simp only [typeIn, bind_ok, Environment.variableType_ok]
  constructor
  · rintro ⟨s, hs, h⟩
    cases s with
    | function parameters returns =>
        simp only at h
        split at h
        · simp at h
        · split at h
          · simp at h
          · obtain ⟨_, hargs, h⟩ := bind_ok.mp h
            obtain rfl := pure_ok.mp h
            exact ⟨parameters, hs, by omega, hargs⟩
    | _ => simp at h
  · rintro ⟨parameters, hf, hlen, hargs⟩
    refine ⟨_, hf, ?_⟩
    simp [hlen, hargs, bind, Except.bind, pure, Except.pure]

mutual

/-- The type that is found for an expression is the one that the rules give. -/
theorem typeIn_ok (env : Environment) : (e : Expr) → {t : Ty} →
    (e.typeIn env = .ok t ↔ e.HasType env.context t)
  | number n p, t => by
      constructor
      · intro h
        obtain rfl : Ty.literal = t := by simpa [typeIn] using h
        exact .number
      · intro h
        cases h
        rfl
  | boolean b p, t => by
      constructor
      · intro h
        obtain rfl : Ty.bool = t := by simpa [typeIn] using h
        exact .boolean
      · intro h
        cases h
        rfl
  | var x p, t => by
      rw [typeIn, variableType_ok]
      constructor
      · rintro ⟨hx, hf⟩
        exact .var hx hf
      · intro h
        cases h with
        | var hx hf => exact ⟨hx, hf⟩
  | negate e p, t => by
      simp only [typeIn, bind_ok]
      constructor
      · rintro ⟨s, hs, h⟩
        split at h
        · next hn =>
          obtain rfl : Ty.i8 = t := by simpa using h
          exact .negate ((typeIn_ok env e).mp hs) (Ty.isNumerical_iff.mp hn)
        · simp at h
      · intro h
        cases h with
        | negate hs hn =>
            refine ⟨_, (typeIn_ok env e).mpr hs, ?_⟩
            simp [Ty.isNumerical_iff.mpr hn]
  | add l r p, t => by
      rw [typeIn_add_ok]
      constructor
      · rintro ⟨s, u, hs, hu, hsum⟩
        exact .add ((typeIn_ok env l).mp hs) ((typeIn_ok env r).mp hu) hsum
      · intro h
        cases h with
        | add hs hu hsum =>
            exact ⟨_, _, (typeIn_ok env l).mpr hs, (typeIn_ok env r).mpr hu, hsum⟩
  | compare c l r p, t => by
      simp only [typeIn, bind_ok]
      constructor
      · rintro ⟨s, hs, u, hu, h⟩
        split at h
        · next hc =>
          obtain rfl : Ty.bool = t := by simpa using h
          exact .compare ((typeIn_ok env l).mp hs) ((typeIn_ok env r).mp hu)
            (Ty.comparable_iff.mp hc)
        · simp at h
      · intro h
        cases h with
        | compare hs hu hc =>
            refine ⟨_, (typeIn_ok env l).mpr hs, _, (typeIn_ok env r).mpr hu, ?_⟩
            simp [Ty.comparable_iff.mpr hc]
  | call f args p, t => by
      rw [typeIn_call_ok]
      constructor
      · rintro ⟨parameters, hf, hlen, hargs⟩
        exact .call hf ((checkArguments_ok env args).mp ⟨hlen, hargs⟩)
      · intro h
        cases h with
        | call hf hfit =>
            obtain ⟨hlen, hargs⟩ := (checkArguments_ok env args).mpr hfit
            exact ⟨_, hf, hlen, hargs⟩

/-- Arguments pass if they are as many as the parameters and each fits its
own. -/
theorem checkArguments_ok (env : Environment) : (args : List Expr) → {parameters : List Ty} →
    ((args.length = parameters.length ∧ checkArguments env args parameters = .ok ()) ↔
      Fit env.context args parameters)
  | [], parameters => by
      constructor
      · rintro ⟨hlen, -⟩
        obtain rfl := List.eq_nil_of_length_eq_zero hlen.symm
        exact .nil
      · intro h
        cases h
        exact ⟨rfl, rfl⟩
  | a :: args, parameters => by
      constructor
      · rintro ⟨hlen, h⟩
        cases parameters with
        | nil => simp at hlen
        | cons t parameters =>
            simp only [checkArguments, bind_ok] at h
            obtain ⟨s, hs, h⟩ := h
            split at h
            · next ha =>
              exact .cons ((typeIn_ok env a).mp hs) (Ty.accepts_iff.mp ha)
                ((checkArguments_ok env args).mp ⟨by simpa using hlen, h⟩)
            · simp at h
      · intro h
        cases h with
        | cons hs ha hfit =>
            obtain ⟨hlen, h⟩ := (checkArguments_ok env args).mpr hfit
            refine ⟨by simp [hlen], ?_⟩
            simp only [checkArguments, bind_ok]
            refine ⟨_, (typeIn_ok env a).mpr hs, ?_⟩
            simp [Ty.accepts_iff.mpr ha, h]

end

end Expr

/-! ### Expressions have no function types -/

/-- The functions of a context return values and not functions. -/
def Context.FirstOrder (Γ : Context) : Prop :=
  ∀ names ∈ Γ, ∀ x parameters returns,
    names x = some (.function parameters returns) → ¬ returns.IsFunction

namespace Context

theorem FirstOrder.type? {Γ : Context} (h : Γ.FirstOrder) {x : String} {parameters : List Ty}
    {returns : Ty} (hx : Γ.type? x = some (.function parameters returns)) :
    ¬ returns.IsFunction := by
  induction Γ with
  | nil => simp [Context.type?] at hx
  | cons names Γ ih =>
      simp only [Context.type?] at hx
      cases hn : names x with
      | some t =>
          simp only [hn] at hx
          exact h names (List.mem_cons_self ..) x parameters returns (hn.trans hx)
      | none =>
          simp only [hn] at hx
          exact ih (fun n hm => h n (List.mem_cons_of_mem _ hm)) hx

theorem FirstOrder.empty {Γ : Context} (h : Γ.FirstOrder) : FirstOrder (Names.empty :: Γ) := by
  intro names hnames x ps r hx
  rcases List.mem_cons.mp hnames with rfl | hnames
  · simp [Names.empty] at hx
  · exact h names hnames x ps r hx

theorem FirstOrder.bind {names : Names} {Γ : Context} (h : FirstOrder (names :: Γ)) {x : String}
    {t : Ty} (ht : t.Concrete) : FirstOrder (names.bind x t :: Γ) := by
  intro names' hnames y ps r hy
  rcases List.mem_cons.mp hnames with rfl | hnames
  · by_cases hyx : y = x
    · simp only [Names.bind, hyx, if_true, Option.some.injEq] at hy
      simp [hy, Ty.Concrete] at ht
    · simp only [Names.bind, hyx, if_false] at hy
      exact h names (List.mem_cons_self ..) y ps r hy
  · exact h names' (List.mem_cons_of_mem _ hnames) y ps r hy

end Context

theorem Ty.Numerical.not_function {t : Ty} (h : t.Numerical) : ¬ t.IsFunction := by
  cases h <;> exact id

theorem Expr.HasType.not_function {Γ : Context} (hΓ : Γ.FirstOrder) {e : Expr} {t : Ty}
    (h : e.HasType Γ t) : ¬ t.IsFunction := by
  cases h with
  | number | boolean | negate _ _ | compare _ _ _ => exact id
  | var _ hf => exact hf
  | add _ _ hsum => cases hsum <;> exact Ty.Numerical.not_function (by assumption)
  | call hf _ => exact hΓ.type? hf

theorem Ty.Accepts.not_function {t s : Ty} (h : t.Accepts s) (hs : ¬ s.IsFunction) :
    ¬ t.IsFunction := by
  cases h with
  | same => exact hs
  | literal hn => exact hn.not_function

end Octet
