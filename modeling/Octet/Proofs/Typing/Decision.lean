import Octet.Proofs.Typing.Statements
import Octet.Token.Scan

/-!
The checker decides the typing rules. The state that checking a function
leaves behind is the state that the next one is checked in, so the functions
of a program are followed one by one: of all that state they only see the
names of the functions, and these stay what they were once all are declared.
-/

namespace Octet

/-! ### Functions -/

theorem Environment.declare_ok {env env' : Environment} {x : String} {t : Ty} {p : Position} :
    env.declare x t p = .ok env' ↔ env.current.names x = none ∧ env' = env.setVariable x t := by
  simp only [Environment.declare, Scope.declare, Result.bind_ok, Result.pure_ok,
    ← Environment.hasVariable_eq_false]
  split
  · next h => simp [h]
  · next h => simp [h, Environment.setVariable, eq_comm]

/-- Where no type has a name, a type that means something means itself. -/
theorem Environment.resolve_eq {env : Environment} (h : env.Plain) {t t' : Ty} {p : Position}
    (hresolve : env.resolve t p = .ok t') : t' = t := by
  cases t with
  | named name => simp [resolve, namedType, findType?_plain h] at hresolve
  | _ => exact (Except.ok.inj hresolve).symm

namespace Names

variable {α : Type} {name : α → String} {type : α → Ty}

/-- Declaring the first of some things and then the others is declaring them
all. -/
theorem ofList_cons (a : α) (items : List α) (names : Names)
    (ha : ∀ b ∈ items, name b ≠ name a) :
    (fun x => (ofList name type items x).or (names.bind (name a) (type a) x)) =
      fun x => (ofList name type (a :: items) x).or (names x) := by
  funext x
  by_cases hx : x = name a
  · subst hx
    have hnone : items.find? (fun b => name b == name a) = none := by
      rw [List.find?_eq_none]
      intro b hb
      simpa using ha b hb
    simp [ofList, bind, hnone]
  · have hax : (name a == x) = false := by simpa using fun h => hx h.symm
    simp [ofList, bind, hx, hax]

/-- Among things with different names each is found by its own. -/
theorem find?_of_mem {items : List α} (hnodup : (items.map name).Nodup) {a : α}
    (ha : a ∈ items) : items.find? (fun b => name b == name a) = some a := by
  induction items with
  | nil => simp at ha
  | cons b items ih =>
      obtain ⟨hb, hnodup⟩ := List.nodup_cons.mp hnodup
      rcases List.mem_cons.mp ha with rfl | ha
      · simp
      · have hne : (name b == name a) = false := by
          simpa using fun h => hb (List.mem_map.mpr ⟨a, ha, h.symm⟩)
        rw [List.find?_cons, hne]
        exact ih hnodup ha

theorem ofList_of_mem {items : List α} (hnodup : (items.map name).Nodup) {a : α}
    (ha : a ∈ items) : ofList name type items (name a) = some (type a) := by
  rw [ofList, find?_of_mem hnodup ha]
  rfl

/-- Functions are known under the types of functions only. -/
theorem ofFunctions_isFunction {fs : List Function} {x : String} {t : Ty}
    (h : ofFunctions fs x = some t) : t.IsFunction := by
  obtain ⟨f, -, rfl⟩ := Option.map_eq_some_iff.mp h
  trivial

/-- A name that has its type already is bound to it again. -/
theorem bind_eq_self {names : Names} {x : String} {t : Ty} (h : names x = some t) :
    names.bind x t = names := by
  funext y
  by_cases hy : y = x
  · simp [bind, hy, h]
  · simp [bind, hy]

end Names

namespace Function

open Check Checker

theorem declareParameters_cons_ok {p : Parameter} {ps : List Parameter} {u : Unit}
    {c c' : Checker} :
    declareParameters (p :: ps) c = .ok u c' ↔
      ∃ t, c.environment.resolve p.type p.position = .ok t ∧
        c.environment.current.names p.name = none ∧
        declareParameters ps (c.withEnvironment (c.environment.setVariable p.name t)) =
          .ok u c' := by
  rw [declareParameters]
  simp only [bind_ok, ask_ok, update_ok, Environment.declare_ok]
  constructor
  · rintro ⟨t, _, ⟨ht, rfl⟩, _, _, ⟨_, ⟨hp, rfl⟩, rfl⟩, h⟩
    exact ⟨t, ht, hp, h⟩
  · rintro ⟨t, ht, hp, h⟩
    exact ⟨t, c, ⟨ht, rfl⟩, (), _, ⟨_, ⟨hp, rfl⟩, rfl⟩, h⟩

/-- A variable of a concrete type keeps the checker ready. -/
theorem ready_setVariable {c : Checker} (hc : c.Ready) (x : String) {t : Ty}
    (ht : t.Concrete) : (c.withEnvironment (c.environment.setVariable x t)).Ready where
  plain := hc.plain.setVariable x t
  firstOrder := by
    simp only [withEnvironment, Environment.context_setVariable]
    exact Context.FirstOrder.bind hc.firstOrder ht

/-- Parameters that can be declared have types that exist, and names that are
new and different from each other. -/
theorem distinct_of_declareParameters : (ps : List Parameter) →
    (∀ p ∈ ps, p.type.Written) → {c c' : Checker} → {u : Unit} → c.Ready →
    declareParameters ps c = .ok u c' →
    (∀ p ∈ ps, p.type.Concrete) ∧ (ps.map Parameter.name).Nodup ∧
      (∀ p ∈ ps, c.environment.current.names p.name = none) ∧ c.Follows c' false ∧
      c'.environment.context =
        (fun x => (Names.ofParameters ps x).or (c.environment.current.names x)) ::
          c.environment.enclosing.map Scope.names
  | [], _, c, c', u, hc, h => by
      obtain ⟨-, rfl⟩ := pure_ok.mp h
      refine ⟨by simp, by simp, by simp, hc.follows, ?_⟩
      simp [Names.ofParameters, Names.ofList, Environment.context_cons]
  | p :: ps, hw, c, c', u, hc, h => by
      obtain ⟨t, ht, hp, h⟩ := declareParameters_cons_ok.mp h
      obtain ⟨hconcrete, rfl⟩ :=
        (Environment.resolve_ok hc.plain (hw p (List.mem_cons_self ..))).mp ht
      obtain ⟨hps, hnodup, hfresh, hfollows, hcontext⟩ := distinct_of_declareParameters ps
        (fun q hq => hw q (List.mem_cons_of_mem _ hq)) (ready_setVariable hc p.name hconcrete) h
      have hbound : (c.environment.setVariable p.name p.type).current.names =
          c.environment.current.names.bind p.name p.type :=
        Environment.names_insert c.environment.current.vars p.name p.type
      simp only [withEnvironment, hbound] at hfresh hcontext
      have hne : ∀ q ∈ ps, q.name ≠ p.name := by
        intro q hq heq
        simpa [Names.bind, heq] using hfresh q hq
      refine ⟨?_, ?_, ?_, ⟨hfollows.ready, hfollows.enclosing, hfollows.returnType,
        hfollows.returned⟩, ?_⟩
      · simpa using ⟨hconcrete, hps⟩
      · simpa using ⟨fun q hq heq => hne q hq heq, hnodup⟩
      · intro q hq
        rcases List.mem_cons.mp hq with rfl | hq
        · exact hp
        · simpa [Names.bind, hne q hq] using hfresh q hq
      · rw [hcontext, Names.ofParameters, Names.ofList_cons p ps _ hne]
        rfl

/-- Parameters whose types exist can be declared under new names that are
different from each other. -/
theorem declareParameters_of_distinct : (ps : List Parameter) → (∀ p ∈ ps, p.type.Concrete) →
    (ps.map Parameter.name).Nodup → {c : Checker} → c.Ready →
    (∀ p ∈ ps, c.environment.current.names p.name = none) →
    ∃ c', declareParameters ps c = .ok () c'
  | [], _, _, c, _, _ => ⟨c, pure_ok.mpr ⟨rfl, rfl⟩⟩
  | p :: ps, hps, hnodup, c, hc, hfresh => by
      have hp : p.type.Concrete := hps p (List.mem_cons_self ..)
      obtain ⟨hne, hnodup⟩ := List.nodup_cons.mp hnodup
      have hbound : (c.environment.setVariable p.name p.type).current.names =
          c.environment.current.names.bind p.name p.type :=
        Environment.names_insert c.environment.current.vars p.name p.type
      obtain ⟨c', h⟩ := declareParameters_of_distinct ps
        (fun q hq => hps q (List.mem_cons_of_mem _ hq)) hnodup
        (ready_setVariable hc p.name hp) (by
          intro q hq
          have hqp : q.name ≠ p.name := fun heq =>
            hne (List.mem_map.mpr ⟨q, hq, heq⟩)
          simpa [withEnvironment, hbound, Names.bind, hqp] using
            hfresh q (List.mem_cons_of_mem _ hq))
      refine ⟨c', declareParameters_cons_ok.mpr ⟨p.type, ?_, hfresh p (List.mem_cons_self ..), h⟩⟩
      exact (Environment.resolve_ok hc.plain (Ty.Concrete.written hp)).mpr ⟨hp, rfl⟩

theorem mapM_resolve_ok {env : Environment} (h : env.Plain) : (ps : List Parameter) →
    {ts : List Ty} → ps.mapM (fun p => env.resolve p.type p.position) = .ok ts →
    ts = ps.map Parameter.type
  | [], ts, hts => by
      simpa [pure, Except.pure, eq_comm] using hts
  | p :: ps, ts, hts => by
      rw [List.mapM_cons, Result.bind_ok] at hts
      obtain ⟨t, ht, hts⟩ := hts
      obtain ⟨ts', hts', hcons⟩ := Result.bind_ok.mp hts
      obtain rfl := Environment.resolve_eq h ht
      rw [← Result.pure_ok.mp hcons, mapM_resolve_ok h ps hts']
      rfl

/-- Where no type has a name, calls see a function as its header is written. -/
theorem visibleSignature_eq (f : Function) {env : Environment} (h : env.Plain) :
    f.visibleSignature env = f.signature := by
  unfold visibleSignature
  cases hr : f.resolvedSignature env with
  | error e => rfl
  | ok t =>
      obtain ⟨returns, hreturns, hr⟩ := Result.bind_ok.mp hr
      obtain ⟨ts, hts, hr⟩ := Result.bind_ok.mp hr
      obtain rfl := Environment.resolve_eq h hreturns
      rw [mapM_resolve_ok h f.parameters hts] at hr
      exact (Result.pure_ok.mp hr).symm

theorem checkBody_ok {f : Function} {u : Unit} {c c' : Checker} :
    f.checkBody c = .ok u c' ↔
      ∃ returns c₁, c.environment.resolve f.returns f.position = .ok returns ∧
        declareParameters f.parameters { c with returnType := returns } = .ok () c₁ ∧
        f.body.check c₁ = .ok () c' ∧ (c'.returned = true ∨ returns = .void) := by
  unfold checkBody
  simp only [bind_ok, ask_ok, modify_ok, get_ok, unless_end_ok]
  constructor
  · rintro ⟨returns, _, ⟨hr, rfl⟩, _, _, rfl, _, c₁, hp, _, c₂, hb, _, _, ⟨rfl, rfl⟩, hret, rfl⟩
    refine ⟨returns, c₁, hr, hp, hb, ?_⟩
    simpa [Classical.or_iff_not_imp_left] using hret
  · rintro ⟨returns, c₁, hr, hp, hb, hret⟩
    refine ⟨returns, c, ⟨hr, rfl⟩, (), _, rfl, (), c₁, hp, (), c', hb, c', c', ⟨rfl, rfl⟩, ?_, rfl⟩
    simpa [Classical.or_iff_not_imp_left] using hret

/-- The environment has one scope, and it holds the names of the functions. -/
structure Global (globals : Names) (env : Environment) : Prop where
  plain : env.Plain
  context : env.context = [globals]

theorem Global.setVariable {globals : Names} {env : Environment} (h : Global globals env)
    {x : String} {t : Ty} (hx : globals x = some t) : Global globals (env.setVariable x t) where
  plain := h.plain.setVariable x t
  context := by
    obtain ⟨hcurrent, henclosing⟩ := List.cons.inj h.context
    rw [Environment.context_setVariable, hcurrent, henclosing, Names.bind_eq_self hx]

/-- The state in which the body of a function is checked: the scope of its
parameters is open and still empty. -/
def entered (f : Function) (env : Environment) : Checker where
  environment := env.push Scope.empty
  returnType := f.returns
  returned := false

theorem check_ok {f : Function} {u : Unit} {c c' : Checker} :
    f.check c = .ok u c' ↔
      ∃ c₁, f.checkBody (f.entered
          (c.environment.setVariable f.name (f.visibleSignature c.environment))) = .ok u c₁ ∧
        c' = c₁.withEnvironment c₁.environment.pop := by
  unfold check
  simp only [bind_ok, modify_ok, inScope_ok]
  constructor
  · rintro ⟨_, _, rfl, _, _, rfl, c₁, h, rfl⟩
    exact ⟨c₁, h, rfl⟩
  · rintro ⟨c₁, h, rfl⟩
    exact ⟨(), _, rfl, (), _, rfl, c₁, h, rfl⟩

theorem entered_ready {f : Function} {globals : Names} {env : Environment}
    (henv : Global globals env) (hfirst : Context.FirstOrder [globals]) :
    (f.entered env).Ready :=
  ⟨henv.plain.push, by
    show Context.FirstOrder (Names.empty :: env.context)
    rw [henv.context]
    exact hfirst.empty⟩

/-- The scopes that the body of a function lies in. -/
theorem declareParameters_context {f : Function} (hf : f.Shaped) {globals : Names}
    {env : Environment} (henv : Global globals env) (hfirst : Context.FirstOrder [globals])
    {u : Unit} {c : Checker} (h : declareParameters f.parameters (f.entered env) = .ok u c) :
    (f.entered env).Follows c false ∧
      c.environment.context = [Names.ofParameters f.parameters, globals] := by
  obtain ⟨-, -, -, hfollows, hcontext⟩ :=
    distinct_of_declareParameters f.parameters hf.parameters (entered_ready henv hfirst) h
  refine ⟨hfollows, hcontext.trans (List.cons_eq_cons.mpr ⟨?_, henv.context⟩)⟩
  funext x
  exact Option.or_none ..

/-- A function that passes obeys its rule, and the functions keep their
names. -/
theorem typed_of_check {f : Function} (hf : f.Shaped) {globals : Names} {c c' : Checker}
    {u : Unit} (hc : Global globals c.environment) (hfirst : Context.FirstOrder [globals])
    (hname : globals f.name = some f.signature) (h : f.check c = .ok u c') :
    f.Typed globals ∧ Global globals c'.environment := by
  obtain ⟨c₁, hbody, rfl⟩ := check_ok.mp h
  rw [visibleSignature_eq f hc.plain] at hbody
  have henv := hc.setVariable hname
  have hready : (f.entered _).Ready := entered_ready henv hfirst
  obtain ⟨returns, c₂, hreturns, hparameters, hbody, hreturned⟩ := checkBody_ok.mp hbody
  obtain ⟨hconcrete, rfl⟩ := (Environment.resolve_ok hready.plain hf.returns).mp hreturns
  obtain ⟨htypes, hnodup, -⟩ :=
    distinct_of_declareParameters f.parameters hf.parameters hready hparameters
  obtain ⟨hfollows₁, hscopes⟩ := declareParameters_context hf henv hfirst hparameters
  obtain ⟨hblock, hfollows₂⟩ := Stmt.typed_of_check f.body.toStmt hf.body hfollows₁.ready hbody
  refine ⟨⟨hconcrete, htypes, hnodup, ?_, ?_⟩, ?_⟩
  · rw [hscopes, hfollows₁.returnType] at hblock
    exact hblock.body_of_block
  · rcases hreturned with hreturned | hvoid
    · rw [hfollows₂.returned, hfollows₁.returned] at hreturned
      exact .inr (by simpa [entered, Block.toStmt, Stmt.hasReturn] using hreturned)
    · exact .inl hvoid
  · have hpop : c₁.environment.pop = c.environment.setVariable f.name f.signature := by
      have henclosing := hfollows₂.enclosing.trans hfollows₁.enclosing
      unfold Environment.pop
      rw [henclosing]
      rfl
    show Global globals c₁.environment.pop
    rw [hpop]
    exact henv

/-- A function that obeys its rule passes. -/
theorem check_of_typed {f : Function} (hf : f.Shaped) {globals : Names} {c : Checker}
    (hc : Global globals c.environment) (hfirst : Context.FirstOrder [globals])
    (hname : globals f.name = some f.signature) (h : f.Typed globals) :
    ∃ c', f.check c = .ok () c' := by
  have henv := hc.setVariable hname
  have hready : (f.entered _).Ready := entered_ready henv hfirst
  obtain ⟨c₂, hparameters⟩ := declareParameters_of_distinct f.parameters h.parameters h.distinct
    hready (fun _ _ => rfl)
  obtain ⟨hfollows₁, hscopes⟩ := declareParameters_context hf henv hfirst hparameters
  obtain ⟨Γ, hΓ⟩ := h.body
  have hblock : f.body.toStmt.Typed c₂.returnType c₂.environment.context
      c₂.environment.context := by
    rw [hscopes, hfollows₁.returnType]
    exact .block hΓ
  obtain ⟨c₃, hpass, -⟩ := Stmt.check_of_typed f.body.toStmt hf.body hfollows₁.ready hblock
  obtain ⟨-, hfollows₂⟩ := Stmt.typed_of_check f.body.toStmt hf.body hfollows₁.ready hpass
  refine ⟨_, check_ok.mpr ⟨c₃, ?_, rfl⟩⟩
  rw [visibleSignature_eq f hc.plain]
  refine checkBody_ok.mpr ⟨f.returns, c₂, ?_, hparameters, hpass, ?_⟩
  · exact (Environment.resolve_ok hready.plain hf.returns).mpr ⟨h.returns, rfl⟩
  · rcases h.returned with hvoid | hreturned
    · exact .inr hvoid
    · left
      rw [hfollows₂.returned, hfollows₁.returned]
      simpa [Block.toStmt, Stmt.hasReturn] using .inr hreturned

/-! ### Programs -/

theorem declareAll_cons_ok {f : Function} {fs : List Function} {errors : List (Option TypeError)}
    {c c' : Checker} :
    declareAll (f :: fs) c = .ok (none :: errors) c' ↔
      c.environment.current.names f.name = none ∧
        declareAll fs (c.withEnvironment (c.environment.setVariable f.name
          (f.visibleSignature c.environment))) = .ok errors c' := by
  rw [declareAll]
  simp only [bind_ok, pure_ok]
  constructor
  · rintro ⟨error, c₁, h, errors', c₂, h', hcons, rfl⟩
    obtain ⟨rfl, rfl⟩ := List.cons_eq_cons.mp hcons
    obtain ⟨_, hdeclare, rfl⟩ := update_ok.mp (failure?_none.mp h)
    obtain ⟨hname, rfl⟩ := Environment.declare_ok.mp hdeclare
    exact ⟨hname, h'⟩
  · rintro ⟨hname, h⟩
    refine ⟨none, _, failure?_none.mpr (update_ok.mpr ⟨_, ?_, rfl⟩), errors, c', h, rfl, rfl⟩
    exact Environment.declare_ok.mpr ⟨hname, rfl⟩

/-- Whatever is wrong with the names, there is one answer for each function. -/
theorem declareAll_total : (fs : List Function) → (c : Checker) →
    ∃ errors c', declareAll fs c = .ok errors c' ∧ errors.length = fs.length
  | [], c => ⟨[], c, rfl, rfl⟩
  | f :: fs, c => by
      obtain ⟨error, c₁, h⟩ := failure?_total (Check.update fun env =>
        env.declare f.name (f.visibleSignature env) f.position) c
      obtain ⟨errors, c₂, h', hlen⟩ := declareAll_total fs c₁
      refine ⟨error :: errors, c₂, ?_, by simp [hlen]⟩
      rw [declareAll, bind_ok]
      exact ⟨error, c₁, h, bind_ok.mpr ⟨errors, c₂, h', pure_ok.mpr ⟨rfl, rfl⟩⟩⟩

/-- Functions that are declared without an error have names that are new and
different from each other, and from then on they are known. -/
theorem distinct_of_declareAll : (fs : List Function) → {c c' : Checker} →
    c.environment.Plain →
    declareAll fs c = .ok (fs.map fun _ => none) c' →
    (fs.map Function.name).Nodup ∧
      (∀ f ∈ fs, c.environment.current.names f.name = none) ∧ c'.environment.Plain ∧
      c'.environment.context =
        (fun x => (Names.ofFunctions fs x).or (c.environment.current.names x)) ::
          c.environment.enclosing.map Scope.names
  | [], c, c', hc, h => by
      obtain ⟨-, rfl⟩ := pure_ok.mp h
      refine ⟨by simp, by simp, hc, ?_⟩
      simp [Names.ofFunctions, Names.ofList, Environment.context_cons]
  | f :: fs, c, c', hc, h => by
      obtain ⟨hf, h⟩ := declareAll_cons_ok.mp h
      rw [visibleSignature_eq f hc] at h
      obtain ⟨hnodup, hfresh, hplain, hcontext⟩ := distinct_of_declareAll fs
        (hc.setVariable f.name f.signature) h
      have hbound : (c.environment.setVariable f.name f.signature).current.names =
          c.environment.current.names.bind f.name f.signature :=
        Environment.names_insert c.environment.current.vars f.name f.signature
      simp only [withEnvironment, hbound] at hfresh hcontext
      have hne : ∀ g ∈ fs, g.name ≠ f.name := by
        intro g hg heq
        simpa [Names.bind, heq] using hfresh g hg
      refine ⟨?_, ?_, hplain, ?_⟩
      · simpa using ⟨fun g hg heq => hne g hg heq, hnodup⟩
      · intro g hg
        rcases List.mem_cons.mp hg with rfl | hg
        · exact hf
        · simpa [Names.bind, hne g hg] using hfresh g hg
      · rw [hcontext, Names.ofFunctions, Names.ofList_cons f fs _ hne]
        rfl

/-- Functions with new names that are different from each other can be
declared. -/
theorem declareAll_of_distinct : (fs : List Function) → (fs.map Function.name).Nodup →
    {c : Checker} → c.environment.Plain →
    (∀ f ∈ fs, c.environment.current.names f.name = none) →
    ∃ c', declareAll fs c = .ok (fs.map fun _ => none) c'
  | [], _, c, _, _ => ⟨c, rfl⟩
  | f :: fs, hnodup, c, hc, hfresh => by
      obtain ⟨hne, hnodup⟩ := List.nodup_cons.mp hnodup
      have hbound : (c.environment.setVariable f.name f.signature).current.names =
          c.environment.current.names.bind f.name f.signature :=
        Environment.names_insert c.environment.current.vars f.name f.signature
      obtain ⟨c', h⟩ := declareAll_of_distinct fs hnodup
        (c := c.withEnvironment (c.environment.setVariable f.name f.signature))
        (hc.setVariable f.name f.signature) (by
          intro g hg
          have hgf : g.name ≠ f.name := fun heq => hne (List.mem_map.mpr ⟨g, hg, heq⟩)
          simpa [withEnvironment, hbound, Names.bind, hgf] using
            hfresh g (List.mem_cons_of_mem _ hg))
      refine ⟨c', declareAll_cons_ok.mpr ⟨hfresh f (List.mem_cons_self ..), ?_⟩⟩
      rw [visibleSignature_eq f hc]
      exact h

theorem failures_cons_ok {f : Function} {redefinition : Option TypeError}
    {fs : List (Function × Option TypeError)} {c c' : Checker} :
    failures ((f, redefinition) :: fs) c = .ok [] c' ↔
      redefinition = none ∧ ∃ c₁, f.check c = .ok () c₁ ∧ failures fs c₁ = .ok [] c' := by
  rw [failures]
  simp only [bind_ok, pure_ok]
  constructor
  · rintro ⟨error, c₁, h, errors, c₂, h', hnil, rfl⟩
    obtain ⟨hboth, rfl⟩ := List.append_eq_nil_iff.mp hnil.symm
    obtain ⟨hredefinition, herror⟩ := List.append_eq_nil_iff.mp hboth
    obtain rfl : error = none := by simpa using herror
    exact ⟨by simpa using hredefinition, c₁, failure?_none.mp h, h'⟩
  · rintro ⟨rfl, c₁, h, h'⟩
    exact ⟨none, c₁, failure?_none.mpr h, [], c', h', rfl, rfl⟩

/-- Functions pass if no name was taken and each of them obeys its rule. What
one of them leaves behind does not change what the next one sees. -/
theorem failures_ok {globals : Names} (hfirst : Context.FirstOrder [globals]) :
    (fs : List Function) → (∀ f ∈ fs, f.Shaped) →
    (∀ f ∈ fs, globals f.name = some f.signature) → {c : Checker} →
    Global globals c.environment →
    ((∃ c', failures (fs.zip (fs.map fun _ => none)) c = .ok [] c') ↔
      ∀ f ∈ fs, f.Typed globals)
  | [], _, _, c, _ => by
      refine ⟨fun _ => by simp, fun _ => ⟨c, rfl⟩⟩
  | f :: fs, hfs, hnames, c, hc => by
      have hf := hfs f (List.mem_cons_self ..)
      have hname := hnames f (List.mem_cons_self ..)
      have hrest {c₁ : Checker} (hc₁ : Global globals c₁.environment) :=
        failures_ok hfirst fs (fun g hg => hfs g (List.mem_cons_of_mem _ hg))
          (fun g hg => hnames g (List.mem_cons_of_mem _ hg)) hc₁
      simp only [List.map_cons, List.zip_cons_cons, failures_cons_ok, true_and,
        List.forall_mem_cons]
      constructor
      · rintro ⟨c', c₁, h, h'⟩
        obtain ⟨htyped, hc₁⟩ := typed_of_check hf hc hfirst hname h
        exact ⟨htyped, (hrest hc₁).mp ⟨c', h'⟩⟩
      · rintro ⟨htyped, hall⟩
        obtain ⟨c₁, h⟩ := check_of_typed hf hc hfirst hname htyped
        obtain ⟨-, hc₁⟩ := typed_of_check hf hc hfirst hname h
        obtain ⟨c', h'⟩ := (hrest hc₁).mpr hall
        exact ⟨c', c₁, h, h'⟩

/-- If no check fails, no name was taken. -/
theorem redefinitions_none : (fs : List Function) → (errors : List (Option TypeError)) →
    errors.length = fs.length → {c c' : Checker} →
    failures (fs.zip errors) c = .ok [] c' → errors = fs.map fun _ => none
  | [], errors, hlen, _, _, _ => List.eq_nil_of_length_eq_zero hlen
  | _ :: _, [], hlen, _, _, _ => by simp at hlen
  | f :: fs, error :: errors, hlen, c, c', h => by
      obtain ⟨rfl, c₁, -, h'⟩ := failures_cons_ok.mp h
      rw [redefinitions_none fs errors (by simpa using hlen) h']
      rfl

end Function

namespace Program

open Check Checker

theorem typeCheck_ok {p : Program} :
    p.typeCheck = .ok () ↔
      ∃ redefinitions c₁ c₂, Function.declareAll p.functions Checker.initial =
          .ok redefinitions c₁ ∧
        Function.failures (p.functions.zip redefinitions) c₁ = .ok [] c₂ := by
  have hcheck : p.typeCheck = .ok () ↔ ∃ c, p.check Checker.initial = .ok () c := by
    unfold typeCheck
    cases p.check Checker.initial <;> simp
  rw [hcheck, check]
  simp only [bind_ok, combine_ok]
  constructor
  · rintro ⟨c, redefinitions, c₁, h, _, c₂, h', rfl, rfl⟩
    exact ⟨redefinitions, c₁, c, h, h'⟩
  · rintro ⟨redefinitions, c₁, c₂, h, h'⟩
    exact ⟨c₂, redefinitions, c₁, h, [], c₂, h', rfl, rfl⟩

/-- The functions of a program return values. -/
theorem firstOrder_functions {p : Program} (hp : p.Shaped) :
    Context.FirstOrder [Names.ofFunctions p.functions] := by
  intro names hnames x parameters returns hx
  obtain rfl := List.mem_singleton.mp hnames
  obtain ⟨f, hf, hsignature⟩ := Option.map_eq_some_iff.mp hx
  simp only [Function.signature, Ty.function.injEq] at hsignature
  have hwritten := (hp f (List.mem_of_find?_eq_some hf)).returns
  rw [hsignature.2] at hwritten
  cases returns <;> first | exact id | exact hwritten.elim

/-- The scope that a program's functions are checked in, once they are all
known. -/
theorem global_of_declareAll {p : Program} {c : Checker}
    (h : Function.declareAll p.functions Checker.initial =
      .ok (p.functions.map fun _ => none) c) :
    (p.functions.map Function.name).Nodup ∧
      Function.Global (Names.ofFunctions p.functions) c.environment := by
  obtain ⟨hnodup, -, hplain, hcontext⟩ :=
    Function.distinct_of_declareAll p.functions Environment.plain_empty h
  refine ⟨hnodup, hplain, hcontext.trans (List.cons_eq_cons.mpr ⟨?_, rfl⟩)⟩
  funext x
  exact Option.or_none ..

/-- A well shaped program passes the check if and only if it is well typed. -/
theorem Shaped.typeCheck_iff {p : Program} (hp : p.Shaped) :
    p.typeCheck = .ok () ↔ p.WellTyped := by
  have hfirst := firstOrder_functions hp
  rw [typeCheck_ok]
  constructor
  · rintro ⟨redefinitions, c₁, c₂, hdeclare, hpass⟩
    obtain ⟨errors, c, htotal, hlen⟩ :=
      Function.declareAll_total p.functions Checker.initial
    obtain ⟨rfl, rfl⟩ : errors = redefinitions ∧ c = c₁ := by
      simpa using htotal.symm.trans hdeclare
    obtain rfl := Function.redefinitions_none p.functions errors hlen hpass
    obtain ⟨hnodup, hglobal⟩ := global_of_declareAll hdeclare
    exact ⟨hnodup, (Function.failures_ok hfirst p.functions hp
      (fun f hf => Names.ofList_of_mem hnodup hf) hglobal).mp ⟨c₂, hpass⟩⟩
  · rintro ⟨hnodup, htyped⟩
    obtain ⟨c₁, hdeclare⟩ := Function.declareAll_of_distinct p.functions hnodup
      Environment.plain_empty (c := Checker.initial) (fun _ _ => rfl)
    obtain ⟨-, hglobal⟩ := global_of_declareAll hdeclare
    obtain ⟨c₂, hpass⟩ := (Function.failures_ok hfirst p.functions hp
      (fun f hf => Names.ofList_of_mem hnodup hf) hglobal).mpr htyped
    exact ⟨_, c₁, c₂, hdeclare, hpass⟩

/-- The checker decides the rules: a program that is read from tokens passes
the check if and only if it is well typed. -/
theorem typeCheck_iff_wellTyped {tokens : List Token} {p : Program}
    (hread : Program.ofTokens tokens = .ok p) : p.typeCheck = .ok () ↔ p.WellTyped :=
  (ofTokens_shaped hread).typeCheck_iff

/-- Reads a program from tokens by computing, with a test that it passes. -/
theorem checked_of_test (tokens : List Token) (test : Program → Bool)
    (h : (Program.ofTokens tokens).toOption.any
      (fun p => p.typeCheck.isOk && test p) = true) :
    ∃ p, Program.ofTokens tokens = .ok p ∧ p.typeCheck = .ok () ∧ test p = true := by
  cases hread : Program.ofTokens tokens with
  | error e => simp [hread, Except.toOption] at h
  | ok p =>
      simp only [hread, Except.toOption, Option.any_some, Bool.and_eq_true] at h
      refine ⟨p, rfl, ?_, h.2⟩
      cases ht : p.typeCheck with
      | ok u => rfl
      | error e => simp [ht, Except.isOk, Except.toBool] at h

/-- A recursive function with a variable that hides its parameter, and a
literal that becomes an `i8`. -/
theorem typeCheck_iff_wellTyped_recursive :
    ∃ tokens p, Program.ofTokens tokens = .ok p ∧ p.WellTyped := by
  obtain ⟨p, hread, hcheck, -⟩ := checked_of_test ((Token.scan
    "def f(a: u8) -> bool:
    if a == 0:
        let a: i8 = 3
        a = -a
        return a == 5
    return f(a + 255)
").toOption.getD []) (fun _ => true) (by decide +kernel)
  exact ⟨_, p, hread, (typeCheck_iff_wellTyped hread).mp hcheck⟩

end Program

end Octet
