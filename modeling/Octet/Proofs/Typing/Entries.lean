import Octet.Diagnostic.Error
import Octet.Proofs.Typing.Scopes

/-!
What comes together in a type error. Errors are grouped by block, by function and
by program, and a group is made only of errors that there are: no group is empty,
however deep it lies. So nothing is lost when an error is taken apart into single
faults, and its text has a line for each of them.

The error of a program has the entries of its functions one behind the other. Each
function has an entry if its name was taken by a function in front of it, and one
for what its own check finds.
-/

namespace Octet

open Check

/-! ### Errors inside of errors -/

namespace TypeError

/-- The first error is the second one, or lies inside it. -/
inductive Within : TypeError → TypeError → Prop where
  | self (e : TypeError) : Within e e
  | inside {part e : TypeError} {errors : List TypeError} : e ∈ errors → Within part e →
      Within part (.combined errors)

/-- No group of errors in it is empty. -/
inductive Filled : TypeError → Prop where
  | single (fault : TypeFault) (p : Position) : Filled (.single fault p)
  | combined {errors : List TypeError} : errors ≠ [] → (∀ e ∈ errors, Filled e) →
      Filled (.combined errors)

theorem Filled.ne_nil_of_within {e : TypeError} (h : e.Filled) {errors : List TypeError}
    (hwithin : (TypeError.combined errors).Within e) : errors ≠ [] := by
  induction h with
  | single fault p => cases hwithin
  | combined hne _ ih =>
      cases hwithin with
      | self => exact hne
      | inside hmem hwithin => exact ih _ hmem hwithin

theorem leavesAll_eq (errors : List TypeError) : leavesAll errors = errors.flatMap leaves := by
  induction errors with
  | nil => rfl
  | cons e errors ih => rw [leavesAll, ih, List.flatMap_cons]

theorem messages_eq (errors : List TypeError) : messages errors = errors.map message := by
  induction errors with
  | nil => rfl
  | cons e errors ih => rw [messages, ih, List.map_cons]

theorem within_of_mem_leaves {fault : TypeFault} {p : Position} : {e : TypeError} →
    (fault, p) ∈ e.leaves → (single fault p).Within e
  | single _ _, h => by
      rw [leaves, List.mem_singleton, Prod.mk.injEq] at h
      obtain ⟨rfl, rfl⟩ := h
      exact .self _
  | combined errors, h => by
      rw [leaves, leavesAll_eq, List.mem_flatMap] at h
      obtain ⟨e, hmem, hleaf⟩ := h
      exact .inside hmem (within_of_mem_leaves hleaf)

/-- The leaves of an error are the single faults that lie inside it. -/
theorem mem_leaves_iff {fault : TypeFault} {p : Position} {e : TypeError} :
    (fault, p) ∈ e.leaves ↔ (single fault p).Within e := by
  refine ⟨within_of_mem_leaves, fun h => ?_⟩
  induction h with
  | self =>
      rw [leaves]
      exact List.mem_singleton_self _
  | inside hmem _ ih =>
      rw [leaves, leavesAll_eq, List.mem_flatMap]
      exact ⟨_, hmem, ih⟩

def leafMessages (e : TypeError) : List String :=
  e.leaves.map fun leaf => (single leaf.1 leaf.2).message

end TypeError

/-- Texts that are joined group by group are joined. -/
theorem Text.intercalate_flatMap {α : Type} {separator : String} {texts : α → List String} :
    (items : List α) → (∀ a ∈ items, texts a ≠ []) →
    separator.intercalate (items.map fun a => separator.intercalate (texts a)) =
      separator.intercalate (items.flatMap texts)
  | [], _ => rfl
  | [a], _ => by simp
  | a :: b :: items, h => by
      have hfirst : texts a ≠ [] := h a (by simp)
      have hrest : (b :: items).flatMap texts ≠ [] := by
        have hb : texts b ≠ [] := h b (by simp)
        simp [hb]
      rw [List.map_cons, String.intercalate_cons_of_ne_nil (by simp),
        intercalate_flatMap (b :: items) fun x hx => h x (List.mem_cons_of_mem _ hx),
        ← String.intercalate_append_of_ne_nil hfirst hrest, ← List.flatMap_cons]

namespace TypeError

theorem Filled.leaves_ne_nil {e : TypeError} (h : e.Filled) : e.leaves ≠ [] := by
  induction h with
  | single fault p => exact List.cons_ne_nil _ _
  | @combined errors hne _ ih =>
      obtain ⟨e, hmem⟩ := List.exists_mem_of_ne_nil errors hne
      rw [leaves, leavesAll_eq]
      exact fun hnil => ih e hmem (List.flatMap_eq_nil_iff.mp hnil e hmem)

/-- The text of an error is made of the texts of its single faults. -/
theorem Filled.message_eq {e : TypeError} (h : e.Filled) :
    e.message = "\n".intercalate e.leafMessages := by
  induction h with
  | single fault p => exact String.intercalate_singleton.symm
  | @combined errors _ hfilled ih =>
      have hgroups : (TypeError.combined errors).leafMessages = errors.flatMap leafMessages := by
        rw [leafMessages, leaves, leavesAll_eq, List.map_flatMap]
        rfl
      have hne : ∀ e ∈ errors, e.leafMessages ≠ [] := fun e he =>
        mt List.map_eq_nil_iff.mp (hfilled e he).leaves_ne_nil
      rw [message, messages_eq, hgroups, ← Text.intercalate_flatMap errors hne]
      exact congrArg _ (List.map_congr_left ih)

end TypeError

/-! ### Errors that are found -/

/-- If the computation fails, it fails with a single fault. -/
def FailsSingly {α : Type} (x : Except TypeError α) : Prop :=
  ∀ e, x = .error e → ∃ fault p, e = .single fault p

namespace FailsSingly

variable {α β : Type}

theorem ok (a : α) : FailsSingly (.ok a : Except TypeError α) := by
  intro e h
  cases h

theorem single (fault : TypeFault) (p : Position) :
    FailsSingly (.error (.single fault p) : Except TypeError α) := by
  intro e h
  cases h
  exact ⟨fault, p, rfl⟩

theorem bind {x : Except TypeError α} {f : α → Except TypeError β} (hx : FailsSingly x)
    (hf : ∀ a, FailsSingly (f a)) : FailsSingly (x >>= f) := by
  intro e h
  rcases Result.bind_error.mp h with h | ⟨a, -, h⟩
  · exact hx e h
  · exact hf a e h

theorem ite {b : Prop} [Decidable b] {x y : Except TypeError α} (hx : FailsSingly x)
    (hy : FailsSingly y) : FailsSingly (if b then x else y) := by
  split
  · exact hx
  · exact hy

theorem filled {x : Except TypeError α} (h : FailsSingly x) {e : TypeError} (he : x = .error e) :
    e.Filled := by
  obtain ⟨fault, p, rfl⟩ := h e he
  exact .single fault p

end FailsSingly

open FailsSingly (ok single)

theorem Environment.variableType_failsSingly (env : Environment) (x : String) (p : Position) :
    FailsSingly (env.variableType x p) := by
  unfold Environment.variableType
  split
  · exact ok _
  · exact single _ _

theorem Environment.resolve_failsSingly (env : Environment) (t : Ty) (p : Position) :
    FailsSingly (env.resolve t p) := by
  unfold Environment.resolve
  split
  · unfold Environment.namedType
    split
    · exact ok _
    · exact single _ _
  · exact ok _

theorem Environment.declare_failsSingly (env : Environment) (x : String) (t : Ty) (p : Position) :
    FailsSingly (env.declare x t p) := by
  refine FailsSingly.bind ?_ fun scope => ok _
  exact .ite (single _ _) (ok _)

namespace Expr

mutual

/-- An expression is reported once, whatever is wrong with it. -/
theorem typeIn_failsSingly (env : Environment) : (e : Expr) → FailsSingly (e.typeIn env)
  | number _ _ | boolean _ _ => by
      rw [typeIn]
      exact ok _
  | var x p => by
      rw [typeIn]
      refine (env.variableType_failsSingly x p).bind fun t => ?_
      split
      · exact single _ _
      · exact ok _
  | negate e _ => by
      rw [typeIn]
      exact (typeIn_failsSingly env e).bind fun t => .ite (ok _) (single _ _)
  | add l r _ => by
      rw [typeIn]
      refine (typeIn_failsSingly env l).bind fun s => (typeIn_failsSingly env r).bind fun t => ?_
      refine .ite (single _ _) (.ite (single _ _) ?_)
      split
      · exact ok _
      · exact single _ _
  | compare _ l r _ => by
      rw [typeIn]
      refine (typeIn_failsSingly env l).bind fun s => (typeIn_failsSingly env r).bind fun t => ?_
      exact .ite (ok _) (single _ _)
  | call x args p => by
      rw [typeIn]
      refine (env.variableType_failsSingly x p).bind fun t => ?_
      split
      · refine .ite (single _ _) (.ite (single _ _) ?_)
        exact (checkArguments_failsSingly env args _).bind fun _ => ok _
      · exact single _ _

theorem checkArguments_failsSingly (env : Environment) : (args : List Expr) →
    (parameters : List Ty) → FailsSingly (checkArguments env args parameters)
  | [], _ => by
      rw [checkArguments]
      · exact ok _
      · simp
  | _ :: _, [] => by
      rw [checkArguments]
      · exact ok _
      · simp
  | a :: args, t :: parameters => by
      rw [checkArguments]
      refine (typeIn_failsSingly env a).bind fun s => ?_
      exact .ite (checkArguments_failsSingly env args parameters) (single _ _)

end

end Expr

/-- The check fails only with errors that have no empty groups. -/
abbrev Check.EndsFilled {α : Type} (x : Check α) : Prop :=
  x.Ends (fun _ => True) TypeError.Filled

namespace Stmt

theorem typeOf_filled (value : Expr) : (typeOf value).EndsFilled :=
  ends_ask fun env _ h => (value.typeIn_failsSingly env).filled h

theorem checkDeclare_filled (x : String) (t : Ty) (value : Expr) (p : Position) :
    (checkDeclare x t value p).EndsFilled := by
  refine (typeOf_filled value).bind fun received _ => ?_
  refine ends_get.bind fun c _ => ends_unless (.single _ _) ?_
  refine (ends_ask fun env _ h => (env.resolve_failsSingly t p).filled h).bind fun expected _ => ?_
  exact (ends_modify _).bind fun _ _ => ends_unless_end (.single _ _)

theorem checkAssign_filled (x : String) (value : Expr) (p : Position) :
    (checkAssign x value p).EndsFilled := by
  refine (typeOf_filled value).bind fun received _ => ?_
  refine (ends_ask fun env _ h => (env.variableType_failsSingly x p).filled h).bind
    fun expected _ => ?_
  exact ends_unless_end (.single _ _)

theorem checkRet_filled (value : Expr) (p : Position) : (checkRet value p).EndsFilled := by
  refine (typeOf_filled value).bind fun received _ => ?_
  exact ends_get.bind fun c _ => ends_unless (.single _ _) (ends_modify _)

theorem checkCondition_filled (condition : Expr) : (checkCondition condition).EndsFilled :=
  (typeOf_filled condition).bind fun _ _ => ends_unless_end (.single _ _)

mutual

/-- A statement fails only with errors that have no empty groups. -/
theorem check_filled : (s : Stmt) → s.check.EndsFilled
  | block body _ => by
      rw [check]
      exact (failures_filled body).inScope.bind fun errors herrors =>
        ends_combine fun hne => .combined hne herrors
  | ifThen condition consequence _ => by
      rw [check]
      exact (checkCondition_filled condition).bind fun _ _ => check_filled consequence
  | print value _ => by
      rw [check]
      exact (typeOf_filled value).bind fun _ _ => ends_pure trivial
  | declare x t value p => by
      rw [check]
      exact checkDeclare_filled x t value p
  | assign x value p => by
      rw [check]
      exact checkAssign_filled x value p
  | ret value p => by
      rw [check]
      exact checkRet_filled value p
  | evaluate value => by
      rw [check]
      exact (typeOf_filled value).bind fun _ _ => ends_pure trivial

theorem failures_filled {E : TypeError → Prop} : (body : List Stmt) →
    (failures body).Ends (fun errors => ∀ e ∈ errors, e.Filled) E
  | [] => by
      rw [failures]
      exact ends_pure (by simp)
  | s :: body => by
      rw [failures]
      refine (check_filled s).failure?.bind fun error herror => ?_
      refine (failures_filled body).bind fun errors herrors => ends_pure fun e he => ?_
      rcases List.mem_append.mp he with he | he
      · exact herror e (Option.mem_toList.mp he)
      · exact herrors e he

end

end Stmt

namespace Function

theorem declareParameters_filled : (ps : List Parameter) → (declareParameters ps).EndsFilled
  | [] => ends_pure trivial
  | p :: ps => by
      rw [declareParameters]
      refine (ends_ask fun env _ h => (env.resolve_failsSingly p.type p.position).filled h).bind
        fun t _ => ?_
      refine (ends_update fun env _ h =>
        (env.declare_failsSingly p.name t p.position).filled h).bind fun _ _ => ?_
      exact declareParameters_filled ps

theorem checkBody_filled (f : Function) : f.checkBody.EndsFilled := by
  refine (ends_ask fun env _ h => (env.resolve_failsSingly f.returns f.position).filled h).bind
    fun returns _ => ?_
  refine (ends_modify _).bind fun _ _ => (declareParameters_filled f.parameters).bind fun _ _ => ?_
  refine (Stmt.check_filled f.body.toStmt).bind fun _ _ => ?_
  exact ends_get.bind fun c _ => ends_unless_end (.single _ _)

theorem check_filled (f : Function) : f.check.EndsFilled :=
  (ends_modify _).bind fun _ _ => (ends_modify _).bind fun _ _ => f.checkBody_filled.inScope

/-! ### The entries of functions -/

/-- The error of a function whose name was taken by one in front of it. -/
def redefinition? (earlier : List Function) (f : Function) : Option TypeError :=
  if ∃ g ∈ earlier, g.name = f.name then some (.single (.alreadyDefined f.name) f.position)
  else none

def checkedBy (c : Checker) (fs : List Function) : Checker :=
  fs.foldl (fun c f => after (f.check c)) c

/-- What is wrong with each of the functions, of which the first is checked in the
given state. -/
def entries (earlier : List Function) : List Function → Checker → List (List TypeError)
  | [], _ => []
  | f :: fs, c => ((redefinition? earlier f).toList ++ (error? (f.check c)).toList) ::
      entries (earlier ++ [f]) fs (after (f.check c))

theorem length_entries (earlier fs : List Function) (c : Checker) :
    (entries earlier fs c).length = fs.length := by
  induction fs generalizing earlier c with
  | nil => rfl
  | cons f fs ih => rw [entries, List.length_cons, ih, List.length_cons]

theorem getElem?_entries (earlier before : List Function) (f : Function) (behind : List Function)
    (c : Checker) : (entries earlier (before ++ f :: behind) c)[before.length]? =
      some ((redefinition? (earlier ++ before) f).toList ++
        (error? (f.check (checkedBy c before))).toList) := by
  induction before generalizing earlier c with
  | nil =>
      rw [List.append_nil]
      rfl
  | cons g before ih =>
      rw [List.cons_append, entries, List.length_cons, List.getElem?_cons_succ, ih,
        List.append_assoc]
      rfl

theorem declare_of_taken {env : Environment} {x : String} (h : env.current.hasVariable x = true)
    (t : Ty) (p : Position) : env.declare x t p = .error (.single (.alreadyDefined x) p) := by
  unfold Environment.declare Scope.declare
  rw [if_pos h]
  rfl

theorem declare_of_new {env : Environment} {x : String} (h : ¬ env.current.hasVariable x = true)
    (t : Ty) (p : Position) : env.declare x t p = .ok (env.setVariable x t) :=
  Environment.declare_ok.mpr ⟨Environment.hasVariable_eq_false.mp (eq_false_of_ne_true h), rfl⟩

theorem hasVariable_setVariable (env : Environment) (x y : String) (t : Ty) :
    (env.setVariable x t).current.hasVariable y = true ↔
      env.current.hasVariable y = true ∨ x = y := by
  show ((env.current.vars.insert x t).find? y).isSome = true ↔ _
  by_cases hxy : y = x
  · subst hxy
    rw [Bindings.find?_insert_self]
    exact iff_of_true rfl (.inr rfl)
  · rw [Bindings.find?_insert_of_ne hxy]
    exact ⟨.inl, fun h => h.resolve_right fun heq => hxy heq.symm⟩

/-- The innermost scope has just the names of these functions. -/
def Knows (fs : List Function) (c : Checker) : Prop :=
  ∀ x, c.environment.current.hasVariable x = true ↔ ∃ g ∈ fs, g.name = x

/-- Of functions with the same name only the first one can be declared. -/
theorem declare_knows {earlier : List Function} {c : Checker} (h : Knows earlier c) (f : Function) :
    ∃ c', failure? (Check.update fun env => env.declare f.name (f.visibleSignature env) f.position)
      c = .ok (redefinition? earlier f) c' ∧ Knows (earlier ++ [f]) c' := by
  have hmore (x : String) : (∃ g ∈ earlier ++ [f], g.name = x) ↔
      (∃ g ∈ earlier, g.name = x) ∨ f.name = x := by
    simp [or_and_right, exists_or]
  by_cases htaken : c.environment.current.hasVariable f.name = true
  · have hearlier : ∃ g ∈ earlier, g.name = f.name := (h f.name).mp htaken
    have hdeclare := declare_of_taken htaken (f.visibleSignature c.environment) f.position
    simp only [failure?, Check.update, hdeclare, redefinition?, if_pos hearlier]
    refine ⟨c, rfl, fun x => ?_⟩
    rw [hmore, h x]
    refine ⟨.inl, fun hx => hx.elim id fun heq => ?_⟩
    exact heq ▸ hearlier
  · have hearlier : ¬ ∃ g ∈ earlier, g.name = f.name := mt (h f.name).mpr htaken
    have hdeclare := declare_of_new htaken (f.visibleSignature c.environment) f.position
    simp only [failure?, Check.update, hdeclare, redefinition?, if_neg hearlier]
    refine ⟨_, rfl, fun x => ?_⟩
    rw [hmore, ← h x]
    exact hasVariable_setVariable _ _ _ _

/-- What is wrong with functions that are declared and then checked. -/
theorem faults_of_declareAll : (fs : List Function) → (earlier : List Function) → {c : Checker} →
    Knows earlier c → ∃ redefinitions c', declareAll fs c = .ok redefinitions c' ∧
      ∀ c₁, faults (fs.zip redefinitions) c₁ = .ok (entries earlier fs c₁) (checkedBy c₁ fs)
  | [], _, c, _ => ⟨[], c, rfl, fun _ => rfl⟩
  | f :: fs, earlier, c, hknown => by
      obtain ⟨c', hfirst, hknown'⟩ := declare_knows hknown f
      obtain ⟨redefinitions, c'', hrest, hfaults⟩ :=
        faults_of_declareAll fs (earlier ++ [f]) hknown'
      refine ⟨redefinition? earlier f :: redefinitions, c'', ?_, fun c₁ => ?_⟩
      · rw [declareAll, bind_of_ok hfirst, bind_of_ok hrest]
        rfl
      · rw [List.zip_cons_cons, faults, failure?_bind, bind_of_ok (hfaults _)]
        rfl

theorem entries_filled {earlier fs : List Function} {c : Checker} {es : List TypeError}
    (hes : es ∈ entries earlier fs c) {e : TypeError} (he : e ∈ es) : e.Filled := by
  induction fs generalizing earlier c with
  | nil => cases hes
  | cons f fs ih =>
      rcases List.mem_cons.mp hes with rfl | hes
      · rcases List.mem_append.mp he with he | he
        · obtain ⟨-, he⟩ := Option.ite_none_right_eq_some.mp (Option.mem_toList.mp he)
          exact Option.some.inj he ▸ .single _ _
        · cases hcheck : f.check c with
          | ok u c' => simp [hcheck, error?] at he
          | error e' c' =>
              obtain rfl : e = e' := by simpa [hcheck, error?] using he
              exact f.check_filled.error c e c' hcheck
      · exact ih hes

end Function

namespace Program

def declared (p : Program) : Checker := after (Function.declareAll p.functions Checker.initial)

theorem faults_eq (p : Program) : p.faults Checker.initial =
    .ok (Function.entries [] p.functions p.declared)
      (Function.checkedBy p.declared p.functions) := by
  have hnone : Function.Knows [] Checker.initial := by
    intro x
    simp [Checker.initial, Environment.empty, Scope.hasVariable, Scope.empty]
  obtain ⟨redefinitions, c, hdeclare, hfaults⟩ :=
    Function.faults_of_declareAll p.functions [] hnone
  rw [faults, bind_of_ok hdeclare, hfaults, declared, hdeclare]
  rfl

theorem typeCheck_filled {p : Program} {e : TypeError} (h : p.typeCheck = .error e) : e.Filled := by
  obtain ⟨groups, c, hfaults, hne, rfl⟩ := typeCheck_error h
  rw [faults_eq] at hfaults
  cases hfaults
  refine .combined hne fun e he => ?_
  obtain ⟨es, hes, he⟩ := List.mem_flatten.mp he
  exact Function.entries_filled hes he

/-- A type error loses nothing of what it is made of, and adds nothing. No group in it
is empty. Its leaves are the single faults that lie inside it; its text has the texts
of these, a line for each, and it points at their positions. What it is made of are
the entries of the functions: each has one if its name was taken by a function in
front of it, and behind that one for what its own check finds. -/
theorem typeCheck_entries {p : Program} {e : TypeError} (h : p.typeCheck = .error e) :
    (∀ errors, (TypeError.combined errors).Within e → errors ≠ []) ∧
    e.leaves ≠ [] ∧
    (∀ fault q, (fault, q) ∈ e.leaves ↔ (TypeError.single fault q).Within e) ∧
    e.message = "\n".intercalate
      (e.leaves.map fun leaf => (TypeError.single leaf.1 leaf.2).message) ∧
    (CompileError.typing e).positions.map some =
      e.leaves.map (fun leaf => (TypeError.single leaf.1 leaf.2).position?) ∧
    ∃ groups : List (List TypeError), e = .combined groups.flatten ∧
      groups.length = p.functions.length ∧
      ∀ before f behind, p.functions = before ++ f :: behind →
        ∃ redefinition own, groups[before.length]? = some (redefinition.toList ++ own.toList) ∧
          ((∃ g ∈ before, g.name = f.name) →
            redefinition = some (.single (.alreadyDefined f.name) f.position)) ∧
          ((∀ g ∈ before, g.name ≠ f.name) → redefinition = none) ∧
          own = error? (f.check (Function.checkedBy p.declared before)) := by
  have hfilled := typeCheck_filled h
  obtain ⟨groups, c, hfaults, -, he⟩ := typeCheck_error h
  rw [faults_eq] at hfaults
  cases hfaults
  refine ⟨fun errors => hfilled.ne_nil_of_within, hfilled.leaves_ne_nil,
    fun fault q => TypeError.mem_leaves_iff, hfilled.message_eq, ?_, _, he,
    Function.length_entries _ _ _, fun before f behind hsplit => ?_⟩
  · exact List.map_map
  · refine ⟨Function.redefinition? before f, _, ?_, fun htaken => ?_, fun hnew => ?_, rfl⟩
    · rw [hsplit]
      exact Function.getElem?_entries [] before f behind p.declared
    · exact if_pos htaken
    · exact if_neg fun htaken => htaken.elim fun g hg => hnew g hg.1 hg.2

/-- Faults in a block inside a function, and a second function of the same name whose
header is wrong too. -/
theorem typeCheck_entries_nested : ∃ (p : Program) (e : TypeError), p.typeCheck = .error e ∧
    e.leaves = [(.mismatch .bool .u8, ⟨3, 9⟩), (.mismatch .bool .u8, ⟨4, 9⟩),
      (.undefinedVariable "a", ⟨5, 12⟩), (.alreadyDefined "f", ⟨6, 1⟩),
      (.undefinedType (.named "thing"), ⟨6, 1⟩)] ∧
    (∀ errors, (TypeError.combined errors).Within e → errors ≠ []) ∧
    e.message = "\n".intercalate
      (e.leaves.map fun leaf => (TypeError.single leaf.1 leaf.2).message) ∧
    ∃ groups : List (List TypeError), e = .combined groups.flatten ∧ groups.length = 2 := by
  let source := "def f() -> u8:
    if true:
        let a: bool = 1
        a = 2
    return a
def f() -> thing:
    f()
"
  have hleaves : (ofSource source).toOption.map (fun p =>
      (p.functions.length, p.typeCheck.mapError TypeError.leaves)) =
    some (2, .error [(.mismatch .bool .u8, ⟨3, 9⟩), (.mismatch .bool .u8, ⟨4, 9⟩),
      (.undefinedVariable "a", ⟨5, 12⟩), (.alreadyDefined "f", ⟨6, 1⟩),
      (.undefinedType (.named "thing"), ⟨6, 1⟩)]) := by decide +kernel
  obtain ⟨p, -, hshape⟩ := Option.map_eq_some_iff.mp hleaves
  obtain ⟨hlength, herror⟩ := Prod.mk.inj hshape
  obtain ⟨e, hcheck, hfaults⟩ := Result.mapError_error.mp herror
  obtain ⟨hfilled, -, -, hmessage, -, groups, he, hcount, -⟩ := typeCheck_entries hcheck
  exact ⟨p, e, hcheck, hfaults, hfilled, hmessage, groups, he, hcount.trans hlength⟩

end Program

end Octet
