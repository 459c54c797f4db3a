import Octet.Proofs.Lowering.Emission
import Octet.Proofs.Typing.Decision

/-!
Which programs have code. A checked program is refused for two reasons only:
`main` takes parameters, or some function needs a slot that cannot be addressed,
and that can be read off the text, by counting its parameters and the variables
that are live in it. Every name that the check lets through has a slot.
-/

namespace Octet

open Z80 (Line)

/-! ### How lowering ends -/

/-- How lowering ends: with code, and then the first property holds, or with an
error that has the second one. -/
structure Gen.Ends {α : Type} (x : Gen α) (g : Generator) (P : Prop) (E : CodegenError → Prop) :
    Prop where
  code : ∀ a, (x g).outcome = .ok a → P
  error : ∀ e, (x g).outcome = .error e → E e

namespace Gen

variable {α β : Type} {g : Generator} {P Q : Prop} {E : CodegenError → Prop}

theorem ends_of_ok {x : Gen α} {a : α} (h : (x g).outcome = .ok a) (hP : P) : x.Ends g P E where
  code := fun _ _ => hP
  error := fun e he => by simp [h] at he

/-- A piece and what comes behind it. What the first piece brings about may be
used for the second. -/
theorem Ends.bind {x : Gen α} (hx : x.Ends g P E) {f : α → Gen β}
    (hf : ∀ code a g', x.Emits g code a g' → P → (f a).Ends g' Q E) : (x >>= f).Ends g Q E := by
  have hbind : (x >>= f) g = andThen x f g := rfl
  rcases h : x g with ⟨lines, e | a, g'⟩
  · have houtcome : ((x >>= f) g).outcome = .error e := by simp [hbind, andThen, h]
    refine ⟨fun b hb => ?_, fun e' he' => ?_⟩
    · simp [houtcome] at hb
    · obtain rfl : e = e' := by simpa [houtcome] using he'
      exact hx.error e (by rw [h])
  · have houtcome : ((x >>= f) g).outcome = (f a g').outcome := by simp [hbind, andThen, h]
    have hrest := hf lines a g' h (hx.code a (by rw [h]))
    exact ⟨fun b hb => hrest.code b (houtcome ▸ hb), fun e he => hrest.error e (houtcome ▸ he)⟩

theorem Ends.weaken {x : Gen α} (hx : x.Ends g P E) (hPQ : P → Q) {F : CodegenError → Prop}
    (hEF : ∀ e, E e → F e) : x.Ends g Q F where
  code := fun a ha => hPQ (hx.code a ha)
  error := fun e he => hEF e (hx.error e he)

theorem ends_pure {a : α} (hP : P) : (pure a : Gen α).Ends g P E := ends_of_ok (a := a) rfl hP

theorem ends_emit (lines : List Line) : (emit lines).Ends g True E := ends_of_ok rfl trivial

theorem ends_instrs (is : List Z80.Instr) : (instrs is).Ends g True E := ends_of_ok rfl trivial

theorem ends_newLabel (stem : String) : (newLabel stem).Ends g True E := ends_of_ok rfl trivial

theorem ends_openBlock : openBlock.Ends g True E := ends_of_ok rfl trivial

theorem ends_closeBlock : closeBlock.Ends g True E := ends_of_ok rfl trivial

theorem ends_slotOf {x : String} (p : Position) {d : Int} (hd : g.frame.lookup x = some d) :
    (slotOf x p).Ends g True E := by
  refine ends_of_ok (a := d) ?_ trivial
  show g.frame.slotOf x p = .ok d
  rw [Frame.slotOf, hd]

theorem onFrame_outcome (f : Frame → Frame × Except CodegenError α) :
    (onFrame f g).outcome = (f g.frame).2 := rfl

theorem ends_pushLocal (x : String) :
    (pushLocal x).Ends g (g.frame.locals < 64)
      (fun e => e = g.frame.tooLarge ∧ ¬ g.frame.locals < 64) := by
  by_cases hroom : g.frame.locals < 64
  · have houtcome : (pushLocal x g).outcome =
        .ok (Frame.localSlot x (g.frame.locals + 1)).displacement := by
      rw [pushLocal, onFrame_outcome, Frame.pushLocal_eq, if_pos hroom]
    exact ends_of_ok houtcome hroom
  · have houtcome : (pushLocal x g).outcome = .error g.frame.tooLarge := by
      rw [pushLocal, onFrame_outcome, Frame.pushLocal_eq, if_neg hroom]
    refine ⟨fun a ha => ?_, fun e he => ⟨?_, hroom⟩⟩
    · simp [houtcome] at ha
    · simpa [houtcome, eq_comm] using he

theorem ends_fail {e : CodegenError} (he : E e) : (fail e : Gen α).Ends g False E where
  code := fun a ha => by simp [fail] at ha
  error := fun e' he' => by
    obtain rfl : e = e' := by simpa [fail] using he'
    exact he

end Gen

/-! ### Names have slots -/

/-- Every name of a variable has a slot. -/
def Frame.Sees (f : Frame) (Γ : Context) : Prop :=
  ∀ x t, Γ.type? x = some t → ¬ t.IsFunction → ∃ d, f.lookup x = some d

theorem Frame.lookup_declare (f : Frame) (x y : String) :
    (f.declare x).lookup y =
      if x = y then some (localSlot x (f.locals + 1)).displacement else f.lookup y := by
  by_cases hxy : x = y <;> simp [lookup, declare, localSlot, hxy]

theorem Frame.Sees.declare {f : Frame} {names : Names} {Γ : Context} (h : f.Sees (names :: Γ))
    (x : String) (t : Ty) : (f.declare x).Sees (names.bind x t :: Γ) := by
  intro y s hy hs
  rw [lookup_declare]
  by_cases hxy : x = y
  · simp [hxy]
  · have hyx : y ≠ x := fun h => hxy h.symm
    simp only [hxy, if_false]
    refine h y s ?_ hs
    simpa [Context.type?, Names.bind, hyx] using hy

/-- Behind a statement the names that it declares have slots. -/
theorem Stmt.Typed.sees {returns : Ty} {f : Frame} {Γ Γ' : Context} : {s : Stmt} →
    s.Typed returns Γ Γ' → f.Sees Γ → (f.declareAll s.declared).Sees Γ'
  | _, .block _, h => h
  | _, .ifThen _ hs, h => hs.sees h
  | _, .print _, h => h
  | _, .declare _ _ _ _, h => h.declare _ _
  | _, .assign _ _ _ _, h => h
  | _, .ret _ _, h => h
  | _, .evaluate _, h => h

namespace Expr

mutual

/-- The code of a typed expression can always be written. -/
theorem lower_ends {Γ : Context} {E : CodegenError → Prop} : (e : Expr) → {t : Ty} →
    {g : Generator} → e.HasType Γ t → g.frame.Sees Γ → e.lower.Ends g True E
  | number _ _, _, _, _, _ => Gen.ends_instrs _
  | boolean _ _, _, _, _, _ => Gen.ends_instrs _
  | var x p, t, g, h, hg => by
      cases h with
      | var hx ht =>
          obtain ⟨d, hd⟩ := hg x t hx ht
          exact (Gen.ends_slotOf p hd).bind fun _ _ _ _ _ => Gen.ends_instrs _
  | negate e p, t, g, h, hg => by
      cases h with
      | negate he ht => exact (lower_ends e he hg).bind fun _ _ _ _ _ => Gen.ends_instrs _
  | add l r p, t, g, h, hg => by
      cases h with
      | add hl hr hsum =>
          refine (lower_ends l hl hg).bind fun _ _ g₁ hemits _ => ?_
          have hg₁ : g₁.frame.Sees Γ := lower_frame l hemits ▸ hg
          refine (Gen.ends_instrs _).bind fun _ _ _ hpush _ => ?_
          obtain ⟨-, rfl⟩ := Gen.instrs_emits.mp hpush
          exact (lower_ends r hr hg₁).bind fun _ _ _ _ _ => Gen.ends_instrs _
  | compare c l r p, t, g, h, hg => by
      cases h with
      | compare hl hr hsame =>
          refine (lower_ends l hl hg).bind fun _ _ g₁ hemits _ => ?_
          have hg₁ : g₁.frame.Sees Γ := lower_frame l hemits ▸ hg
          refine (Gen.ends_instrs _).bind fun _ _ _ hpush _ => ?_
          obtain ⟨-, rfl⟩ := Gen.instrs_emits.mp hpush
          refine (lower_ends r hr hg₁).bind fun _ _ _ _ _ => ?_
          refine (Gen.ends_instrs _).bind fun _ _ _ _ _ => ?_
          exact (Gen.ends_newLabel _).bind fun _ _ _ _ _ => Gen.ends_emit _
  | call f args p, t, g, h, hg => by
      cases h with
      | call hf hargs =>
          exact (lowerArguments_ends args hargs hg).bind fun _ _ _ _ _ => Gen.ends_instrs _

theorem lowerArguments_ends {Γ : Context} {E : CodegenError → Prop} : (args : List Expr) →
    {parameters : List Ty} → {g : Generator} → Fit Γ args parameters → g.frame.Sees Γ →
    (lowerArguments args).Ends g True E
  | [], _, _, _, _ => Gen.ends_pure trivial
  | a :: args, parameters, g, h, hg => by
      cases h with
      | cons ha haccepts hargs =>
          refine (lower_ends a ha hg).bind fun _ _ g₁ hemits _ => ?_
          have hg₁ : g₁.frame.Sees Γ := lower_frame a hemits ▸ hg
          refine (Gen.ends_instrs _).bind fun _ _ _ hpush _ => ?_
          obtain ⟨-, rfl⟩ := Gen.instrs_emits.mp hpush
          exact lowerArguments_ends args hargs hg₁

end

end Expr

/-! ### Live variables -/

namespace Stmt

mutual

/-- The number of live variables at each point of a statement, when `live` are
live in front of it. -/
def liveCounts (live : Nat) : Stmt → List Nat
  | block body _ => liveCountsAll live body
  | ifThen _ consequence _ => consequence.liveCounts live
  | declare _ _ _ _ => [live, live + 1]
  | print _ _ | assign _ _ _ | ret _ _ | evaluate _ => [live]

def liveCountsAll (live : Nat) : List Stmt → List Nat
  | [] => [live]
  | s :: body => s.liveCounts live ++ liveCountsAll (live + s.declared.length) body

end

/-- No point has more than 64 live variables. -/
def Fits (counts : List Nat) : Prop := ∀ n ∈ counts, n ≤ 64

theorem fits_singleton {n : Nat} (h : n ≤ 64) : Fits [n] := by
  simpa [Fits] using h

theorem not_fits_iff {counts : List Nat} : ¬ Fits counts ↔ ∃ n ∈ counts, 64 < n := by
  simp [Fits]

theorem Fits.declared {live : Nat} (hlive : live ≤ 64) : {s : Stmt} →
    Fits (s.liveCounts live) → live + s.declared.length ≤ 64
  | block _ _, _ => hlive
  | ifThen _ consequence _, h => Fits.declared hlive (s := consequence) h
  | declare _ _ _ _, h => h (live + 1) (by simp [liveCounts])
  | print _ _, _ => hlive
  | assign _ _ _, _ => hlive
  | ret _ _, _ => hlive
  | evaluate _, _ => hlive

mutual

/-- A typed statement has code if its variables fit, and else the frame is too
large. -/
theorem lower_ends {returns : Ty} {Γ Γ' : Context} : (s : Stmt) → {g : Generator} →
    s.Typed returns Γ Γ' → g.frame.Sees Γ → g.frame.locals ≤ 64 →
    s.lower.Ends g (Fits (s.liveCounts g.frame.locals))
      (fun e => e = g.frame.tooLarge ∧ ¬ Fits (s.liveCounts g.frame.locals))
  | block body p, g, h, hg, hlive => by
      cases h with
      | block hbody =>
          refine Gen.ends_openBlock.bind fun _ _ g₁ hopen _ => ?_
          obtain ⟨-, rfl⟩ := Gen.openBlock_emits.mp hopen
          have hsees : g.frame.openBlock.Sees (Names.empty :: Γ) := hg
          have hends := lowerAll_ends body (g := ⟨g.frame.openBlock, g.labels⟩) hbody hsees hlive
          refine hends.bind fun _ _ _ _ hfits => ?_
          refine Gen.ends_closeBlock.bind fun _ _ _ _ _ => ?_
          exact (Gen.ends_instrs _).weaken (fun _ => hfits) (fun _ => id)
  | ifThen condition consequence p, g, h, hg, hlive => by
      cases h with
      | ifThen hcondition hconsequence =>
          refine (Gen.ends_newLabel _).bind fun _ _ g₁ hlabel _ => ?_
          obtain ⟨-, -, hg₁⟩ := Gen.newLabel_emits.mp hlabel
          have hsees : g₁.frame.Sees Γ := by
            rw [hg₁]
            exact hg
          refine (Expr.lower_ends condition hcondition hsees).bind fun _ _ g₂ hemits _ => ?_
          have hframe : g₂.frame = g.frame := by
            rw [Expr.lower_frame condition hemits, hg₁]
          refine (Gen.ends_instrs _).bind fun _ _ _ hjump _ => ?_
          obtain ⟨-, rfl⟩ := Gen.instrs_emits.mp hjump
          rw [← hframe] at hg hlive ⊢
          refine (lower_ends consequence hconsequence hg hlive).bind fun _ _ _ _ hfits => ?_
          exact (Gen.ends_emit _).weaken (fun _ => hfits) (fun _ => id)
  | print value p, g, h, hg, hlive => by
      cases h with
      | print hvalue =>
          refine (Expr.lower_ends value hvalue hg).bind fun _ _ _ _ _ => ?_
          exact (Gen.ends_instrs _).weaken (fun _ => fits_singleton hlive) fun _ => id
  | declare x t value p, g, h, hg, hlive => by
      cases h with
      | declare hvalue _ _ _ =>
          have hfits : Fits (liveCounts g.frame.locals (declare x t value p)) ↔
              g.frame.locals < 64 := by
            simp only [Fits, liveCounts, List.mem_cons, List.not_mem_nil, or_false,
              forall_eq_or_imp, forall_eq]
            omega
          rw [hfits]
          refine (Expr.lower_ends value hvalue hg).bind fun _ _ g₁ hemits _ => ?_
          refine (Gen.ends_instrs _).bind fun _ _ g₂ hpush _ => ?_
          have hframe : g₂.frame = g.frame := by
            rw [(Gen.instrs_emits.mp hpush).2, Expr.lower_frame value hemits]
          rw [← hframe]
          exact (Gen.ends_pushLocal x).bind fun _ _ _ _ hroom => Gen.ends_pure hroom
  | assign x value p, g, h, hg, hlive => by
      cases h with
      | @assign _ _ t _ _ _ hvalue hx ht _ =>
          refine (Expr.lower_ends value hvalue hg).bind fun _ _ g₁ hemits _ => ?_
          have hframe : g₁.frame = g.frame := Expr.lower_frame value hemits
          obtain ⟨d, hd⟩ := hg x t hx ht
          rw [← hframe] at hd
          refine (Gen.ends_slotOf p hd).bind fun _ _ _ _ _ => ?_
          exact (Gen.ends_instrs _).weaken (fun _ => fits_singleton hlive) fun _ => id
  | ret value p, g, h, hg, hlive => by
      cases h with
      | ret hvalue _ =>
          refine (Expr.lower_ends value hvalue hg).bind fun _ _ _ _ _ => ?_
          exact (Gen.ends_instrs _).weaken (fun _ => fits_singleton hlive) fun _ => id
  | evaluate value, g, h, hg, hlive => by
      cases h with
      | evaluate hvalue =>
          exact (Expr.lower_ends value hvalue hg).weaken (fun _ => fits_singleton hlive) fun _ => id

theorem lowerAll_ends {returns : Ty} {Γ Γ' : Context} : (body : List Stmt) → {g : Generator} →
    TypedAll returns Γ body Γ' → g.frame.Sees Γ → g.frame.locals ≤ 64 →
    (lowerAll body).Ends g (Fits (liveCountsAll g.frame.locals body))
      (fun e => e = g.frame.tooLarge ∧ ¬ Fits (liveCountsAll g.frame.locals body))
  | [], g, _, _, hlive => Gen.ends_pure (fits_singleton hlive)
  | s :: body, g, h, hg, hlive => by
      cases h with
      | cons hs hbody =>
          have happend : Fits (liveCountsAll g.frame.locals (s :: body)) ↔
              Fits (s.liveCounts g.frame.locals) ∧
                Fits (liveCountsAll (g.frame.locals + s.declared.length) body) := by
            simp only [Fits, liveCountsAll, List.mem_append, or_imp, forall_and]
          rw [happend]
          have hfirst := lower_ends s hs hg hlive
          refine (hfirst.weaken id fun e he => ⟨he.1, fun hboth => he.2 hboth.1⟩).bind
            fun _ _ g₁ hemits hfits => ?_
          have hframe := lower_frame s hemits
          have hlocals : g₁.frame.locals = g.frame.locals + s.declared.length := by
            rw [hframe, Frame.locals_declareAll]
          have hrest := lowerAll_ends body hbody (hframe ▸ hs.sees hg)
            (hlocals ▸ Fits.declared hlive hfits)
          rw [hlocals, hframe, Frame.tooLarge_declareAll] at hrest
          exact hrest.weaken (fun h => ⟨hfits, h⟩) fun e he => ⟨he.1, fun hboth => he.2 hboth.2⟩

end

end Stmt

/-! ### Functions -/

/-- The function has more parameters, or at some point of its body more live
variables, than can be addressed. -/
def Function.Oversized (f : Function) : Prop :=
  62 < f.parameters.length ∨ ∃ n ∈ Stmt.liveCountsAll 0 f.body.body, 64 < n

instance : DecidablePred Function.Oversized := fun f =>
  inferInstanceAs (Decidable (62 < f.parameters.length ∨
    ∃ n ∈ Stmt.liveCountsAll 0 f.body.body, 64 < n))

namespace Frame

theorem parameterSlots_inReach (names : List String) :
    (parameterSlots names).all Slot.inReach = true ↔ names.length ≤ 62 := by
  induction names with
  | nil => simp [parameterSlots]
  | cons name names ih =>
      have hslot : (parameterSlot name names.length).inReach = true ↔ names.length ≤ 61 := by
        have hdisplacement : (parameterSlot name names.length).displacement =
          5 + 2 * (names.length : Nat) := rfl
        rw [Slot.inReach, hdisplacement, Bool.and_eq_true, decide_eq_true_eq, decide_eq_true_eq]
        omega
      rw [parameterSlots, List.all_cons, Bool.and_eq_true, ih, hslot, List.length_cons]
      omega

theorem lookup_parameterSlots {names : List String} {x : String} (hx : x ∈ names) :
    ∃ s ∈ parameterSlots names, s.name = x := by
  induction names with
  | nil => simp at hx
  | cons name names ih =>
      rcases List.mem_cons.mp hx with rfl | hx
      · exact ⟨_, List.mem_cons_self .., rfl⟩
      · obtain ⟨s, hs, hname⟩ := ih hx
        exact ⟨s, List.mem_cons_of_mem _ hs, hname⟩

/-- At the beginning of a function all its parameters have slots. -/
theorem sees_parameters {globals : Names} (hglobals : ∀ x t, globals x = some t → t.IsFunction)
    {ps : List Parameter} {f : Frame}
    (hf : f.slots = (parameterSlots (ps.map Parameter.name)).reverse) :
    f.Sees [Names.ofParameters ps, globals] := by
  intro x t hx ht
  cases hp : Names.ofParameters ps x with
  | none =>
      have hglobal : globals x = some t := by
        cases hg : globals x <;> simp [Context.type?, hp, hg] at hx ⊢
        exact hx
      exact absurd (hglobals x t hglobal) ht
  | some s =>
      obtain ⟨p, hfind, -⟩ := Option.map_eq_some_iff.mp hp
      have hname : p.name = x := by simpa using List.find?_some hfind
      have hmem : x ∈ ps.map Parameter.name :=
        List.mem_map.mpr ⟨p, List.mem_of_find?_eq_some hfind, hname⟩
      obtain ⟨slot, hslot, hx⟩ := lookup_parameterSlots hmem
      have hsome : (f.slots.find? fun s => s.name == x).isSome = true := by
        rw [List.find?_isSome, hf]
        exact ⟨slot, List.mem_reverse.mpr hslot, by simpa using hx⟩
      obtain ⟨found, hfound⟩ := Option.isSome_iff_exists.mp hsome
      exact ⟨found.displacement, by simp [lookup, hfound]⟩

end Frame

namespace Function

theorem lower_ends {globals : Names} (hglobals : ∀ x t, globals x = some t → t.IsFunction)
    {f : Function} (hf : f.Typed globals) (g : Generator) :
    f.lower.Ends g (¬ f.Oversized)
      (fun e => e = .frameTooLarge f.name f.position ∧ f.Oversized) := by
  let names := f.parameters.map Parameter.name
  have hreach := Frame.parameterSlots_inReach names
  have hlen : names.length = f.parameters.length := List.length_map ..
  by_cases hroom : f.parameters.length ≤ 62
  · have hall : (Frame.parameterSlots names).all Slot.inReach = true := by
      rw [hreach, hlen]
      exact hroom
    have hoversized : ¬ f.Oversized ↔ Stmt.Fits (Stmt.liveCountsAll 0 f.body.body) := by
      rw [Oversized, ← Stmt.not_fits_iff, not_or, Classical.not_not]
      simp [hroom]
    let frame : Frame := ⟨(Frame.parameterSlots names).reverse, [], 0, f.name, f.position⟩
    have henter : (Gen.onFrame fun _ => Frame.enter f.name names f.position).Emits g [] ()
        ⟨frame, g.labels⟩ := by
      refine Gen.onFrame_emits.mpr ⟨rfl, ?_, rfl⟩
      rw [Frame.enter, if_pos hall]
    refine (Gen.ends_of_ok (congrArg Emission.outcome henter) trivial).bind
      fun _ _ g₀ hentered _ => ?_
    refine (Gen.ends_emit _).bind fun _ _ g₁ hlines _ => ?_
    have hg₁ : g₁.frame = frame := by
      obtain ⟨-, hframe, -⟩ := Gen.onFrame_emits.mp hentered
      rw [Frame.enter, if_pos hall] at hframe
      rw [(Gen.emit_emits.mp hlines).2]
      exact (Prod.mk.inj hframe).1.symm
    obtain ⟨Γ, hbody⟩ := hf.body
    have hsees : g₁.frame.Sees [Names.ofParameters f.parameters, globals] :=
      Frame.sees_parameters hglobals (by rw [hg₁])
    have hblock := Stmt.lower_ends f.body.toStmt (.block hbody) hsees (by simp [hg₁, frame])
    rw [hg₁] at hblock
    rw [hoversized]
    refine (hblock.weaken id ?_).bind fun _ _ _ _ hfits => ?_
    · rintro e ⟨rfl, hnot⟩
      exact ⟨rfl, Classical.not_not.mp fun h => hnot (hoversized.mp h)⟩
    · exact (Gen.ends_instrs _).weaken (fun _ => hfits) fun _ => id
  · have hall : (Frame.parameterSlots names).all Slot.inReach ≠ true := by
      rw [Ne, hreach, hlen]
      exact hroom
    have henter : (Frame.enter f.name names f.position).2 =
        .error (.frameTooLarge f.name f.position) := by
      rw [Frame.enter, if_neg hall]
      rfl
    refine Gen.Ends.bind (P := False) ⟨fun a ha => ?_, fun e he => ?_⟩ fun _ _ _ _ h => h.elim
    · exact absurd (henter.symm.trans ha) (by simp)
    · obtain rfl := Except.error.inj (henter.symm.trans he)
      exact ⟨rfl, .inl (Nat.lt_of_not_le hroom)⟩

/-- The first function of a program that is too large, in the order of the
text. -/
def FirstOversized (fs : List Function) (f : Function) : Prop :=
  ∃ before after, fs = before ++ f :: after ∧ (∀ g ∈ before, ¬ g.Oversized) ∧ f.Oversized

theorem lowerAll_ends {globals : Names} (hglobals : ∀ x t, globals x = some t → t.IsFunction) :
    (fs : List Function) → (∀ f ∈ fs, f.Typed globals) → (g : Generator) →
    (lowerAll fs).Ends g (∀ f ∈ fs, ¬ f.Oversized)
      (fun e => ∃ f, FirstOversized fs f ∧ e = .frameTooLarge f.name f.position)
  | [], _, g => Gen.ends_pure (by simp)
  | f :: fs, hfs, g => by
      refine (Gen.ends_emit _).bind fun _ _ g₁ _ _ => ?_
      have hf := lower_ends hglobals (hfs f (List.mem_cons_self ..)) g₁
      refine (hf.weaken id ?_).bind fun _ _ g₂ _ hfits => ?_
      · rintro e ⟨rfl, hlarge⟩
        exact ⟨f, ⟨[], fs, rfl, by simp, hlarge⟩, rfl⟩
      · have hrest := lowerAll_ends hglobals fs (fun h hh => hfs h (List.mem_cons_of_mem _ hh)) g₂
        refine hrest.weaken (fun h => by simpa using ⟨hfits, h⟩) ?_
        rintro e ⟨h, ⟨before, after, rfl, hbefore, hlarge⟩, rfl⟩
        refine ⟨h, ⟨f :: before, after, rfl, ?_, hlarge⟩, rfl⟩
        simpa using ⟨hfits, hbefore⟩

/-- Only one function is the first. -/
theorem FirstOversized.unique {fs : List Function} {f h : Function}
    (hf : FirstOversized fs f) (hh : FirstOversized fs h) : f = h := by
  obtain ⟨before, after, rfl, hbefore, hlarge⟩ := hf
  obtain ⟨before', after', heq, hbefore', hlarge'⟩ := hh
  induction before generalizing before' with
  | nil =>
      cases before' with
      | nil => exact (List.cons.inj heq).1
      | cons b before' =>
          obtain ⟨rfl, -⟩ := List.cons.inj heq
          exact absurd hlarge (hbefore' f (List.mem_cons_self ..))
  | cons b before ih =>
      cases before' with
      | nil =>
          obtain ⟨rfl, -⟩ := List.cons.inj heq
          exact absurd hlarge' (hbefore b (List.mem_cons_self ..))
      | cons b' before' =>
          exact ih (fun g hg => hbefore g (List.mem_cons_of_mem _ hg)) before'
            (List.cons.inj heq).2 fun g hg => hbefore' g (List.mem_cons_of_mem _ hg)

end Function

/-! ### Programs -/

namespace Program

/-- The function `main` has parameters, and stands at the position. -/
def MainTakesParameters (p : Program) (q : Position) : Prop :=
  ∃ f ∈ p.functions, f.name = "main" ∧ f.parameters ≠ [] ∧ f.position = q

theorem main?_eq_some {p : Program} (hp : (p.functions.map Function.name).Nodup) {f : Function} :
    p.main? = some f ↔ f ∈ p.functions ∧ f.name = "main" := by
  constructor
  · intro h
    exact ⟨List.mem_of_find?_eq_some h, by simpa using List.find?_some h⟩
  · rintro ⟨hf, hname⟩
    rw [main?, ← hname]
    exact Names.find?_of_mem hp hf

/-- Only one function is called `main`. -/
theorem MainTakesParameters.unique {p : Program} (hp : (p.functions.map Function.name).Nodup)
    {q q' : Position} (h : p.MainTakesParameters q) (h' : p.MainTakesParameters q') : q = q' := by
  obtain ⟨f, hf, hname, -, rfl⟩ := h
  obtain ⟨f', hf', hname', -, rfl⟩ := h'
  have hsame := ((main?_eq_some hp).mpr ⟨hf, hname⟩).symm.trans
    ((main?_eq_some hp).mpr ⟨hf', hname'⟩)
  rw [Option.some.inj hsame]

theorem lowerStart_ends {p : Program} (hp : (p.functions.map Function.name).Nodup)
    (g : Generator) :
    p.lowerStart.Ends g (∀ q, ¬ p.MainTakesParameters q)
      (fun e => ∃ q, p.MainTakesParameters q ∧ e = .mainHasParameters q) := by
  have hmain : ∀ q, p.MainTakesParameters q ↔
      ∃ f, p.main? = some f ∧ f.parameters ≠ [] ∧ f.position = q := by
    intro q
    simp only [main?_eq_some hp, MainTakesParameters, and_assoc]
  simp only [hmain]
  refine (Gen.ends_emit _).bind fun _ _ g₁ _ _ => ?_
  cases p.main? with
  | none =>
      exact (Gen.ends_instrs _).weaken (fun _ => by simp) fun _ => id
  | some f =>
      by_cases hparameters : f.parameters = []
      · simp only [hparameters, List.isEmpty_nil, if_true]
        refine (Gen.ends_instrs _).bind fun _ _ _ _ _ => ?_
        exact (Gen.ends_instrs _).weaken (fun _ => by simp [hparameters]) fun _ => id
      · have hempty : f.parameters.isEmpty = false := by simpa using hparameters
        simp only [hempty, Bool.false_eq_true, if_false]
        refine (Gen.ends_fail ⟨f.position, ⟨f, rfl, hparameters, rfl⟩, rfl⟩).bind
          fun _ _ _ _ h => h.elim

theorem lower_ends {p : Program} (htyped : p.WellTyped) (snapshot : Option String) :
    (p.lower snapshot).Ends Generator.initial
      ((∀ q, ¬ p.MainTakesParameters q) ∧ ∀ f ∈ p.functions, ¬ f.Oversized)
      (fun e => (∃ q, p.MainTakesParameters q ∧ e = .mainHasParameters q) ∨
        (∀ q, ¬ p.MainTakesParameters q) ∧
          ∃ f, Function.FirstOversized p.functions f ∧ e = .frameTooLarge f.name f.position) := by
  rw [lower_eq]
  refine (Gen.ends_emit _).bind fun _ _ g₁ _ _ => ?_
  refine ((lowerStart_ends htyped.distinct g₁).weaken id fun e he => .inl he).bind
    fun _ _ g₂ _ hmain => ?_
  have hall := Function.lowerAll_ends (fun _ _ => Names.ofFunctions_isFunction) p.functions
    htyped.functions g₂
  refine (hall.weaken id fun e he => .inr ⟨hmain, he⟩).bind fun _ _ g₃ _ hfits => ?_
  exact (Gen.ends_emit _).weaken (fun _ => ⟨hmain, hfits⟩) fun _ => id

/-- Whether a checked program has code, and what is said if it has none. -/
theorem assembly_outcome {tokens : List Token} {p : Program}
    (hread : Program.ofTokens tokens = .ok p) (hcheck : p.typeCheck = .ok ())
    (snapshot : Option String) :
    (∀ x q, p.assembly snapshot ≠ .error (.unresolvedVariable x q)) ∧
    (∀ q, p.assembly snapshot = .error (.mainHasParameters q) ↔ p.MainTakesParameters q) ∧
    ((∀ q, ¬ p.MainTakesParameters q) →
      (∀ name q, p.assembly snapshot = .error (.frameTooLarge name q) ↔
        ∃ f, Function.FirstOversized p.functions f ∧ f.name = name ∧ f.position = q) ∧
      ((∀ f ∈ p.functions, ¬ f.Oversized) → ∃ text, p.assembly snapshot = .ok text)) := by
  have htyped := (ofTokens_shaped hread).typeCheck_iff.mp hcheck
  have hends := lower_ends htyped snapshot
  cases houtcome : (p.lower snapshot Generator.initial).outcome with
  | ok u =>
      obtain ⟨hmain, hfits⟩ := hends.code u houtcome
      have hassembly : p.assembly snapshot =
          .ok (Z80.Line.join (p.lower snapshot Generator.initial).lines) := by
        simp only [assembly, assemblyLines, houtcome]
        rfl
      rw [hassembly]
      refine ⟨by simp, fun q => by simp [hmain q], fun _ => ⟨fun name q => ?_, fun _ => ⟨_, rfl⟩⟩⟩
      simp only [reduceCtorEq, false_iff]
      rintro ⟨f, ⟨before, after, hfs, -, hlarge⟩, -⟩
      exact hfits f (by simp [hfs]) hlarge
  | error e =>
      have hassembly : p.assembly snapshot = .error e := by
        simp only [assembly, assemblyLines, houtcome]
        rfl
      rw [hassembly]
      rcases hends.error e houtcome with ⟨q, hmain, rfl⟩ | ⟨hmain, f, hfirst, rfl⟩
      · refine ⟨by simp, fun q' => ?_, fun hno => absurd hmain (hno q)⟩
        simp only [Except.error.injEq, CodegenError.mainHasParameters.injEq]
        exact ⟨fun h => h ▸ hmain, hmain.unique htyped.distinct⟩
      · refine ⟨by simp, fun q => by simp [hmain q], fun _ => ⟨fun name q => ?_, fun hfits => ?_⟩⟩
        · simp only [Except.error.injEq, CodegenError.frameTooLarge.injEq]
          constructor
          · exact fun h => ⟨f, hfirst, h⟩
          · rintro ⟨f', hfirst', h⟩
            rw [hfirst.unique hfirst']
            exact h
        · obtain ⟨before, after, hfs, -, hlarge⟩ := hfirst
          exact absurd hlarge (hfits f (by simp [hfs]))

/-- Nobody could give `main` an argument, and no frame has room for 64
parameters. -/
theorem assembly_outcome_refused :
    (∃ tokens p q, Program.ofTokens tokens = .ok p ∧ p.typeCheck = .ok () ∧
      p.assembly none = .error (.mainHasParameters q)) ∧
    ∃ tokens p name q, Program.ofTokens tokens = .ok p ∧ p.typeCheck = .ok () ∧
      p.assembly none = .error (.frameTooLarge name q) := by
  constructor
  · obtain ⟨p, hread, hcheck, htest⟩ := checked_of_test ((Token.scan
      "def f() -> void:
    let a: u8 = 1
def main(a: u8) -> void:
    print(a)
").toOption.getD [])
      (fun p => p.functions.any fun f => f.name == "main" && !f.parameters.isEmpty)
      (by decide +kernel)
    obtain ⟨f, hf, htest⟩ := List.any_eq_true.mp htest
    simp only [Bool.and_eq_true, beq_iff_eq, Bool.not_eq_true', List.isEmpty_eq_false_iff] at htest
    have hmain : p.MainTakesParameters f.position := ⟨f, hf, htest.1, htest.2, rfl⟩
    exact ⟨_, p, f.position, hread, hcheck,
      ((assembly_outcome hread hcheck none).2.1 f.position).mpr hmain⟩
  · let letters := ['a', 'b', 'c', 'd', 'e', 'f', 'g', 'h']
    let names := letters.flatMap fun c => letters.map fun d => String.ofList [c, d]
    let parameters := names.flatMap fun name : String => [(⟨.identifier, name, .start⟩ : Token),
      ⟨.colon, ":", .start⟩, ⟨.kwU8, "u8", .start⟩, ⟨.comma, ",", .start⟩]
    let tokensOf (source : String) := (Token.scan source).toOption.getD []
    obtain ⟨p, hread, hcheck, htest⟩ := checked_of_test
      ((tokensOf "def wide(").dropLast ++ parameters.dropLast ++
        tokensOf ") -> void:\n    print(1)\n")
      (fun p => p.functions.all (fun f => f.name != "main") &&
        p.functions.head?.any fun f : Function => decide f.Oversized)
      (by decide +kernel)
    obtain ⟨hnames, hfirst⟩ := Bool.and_eq_true_iff.mp htest
    have hmain (q : Position) : ¬ p.MainTakesParameters q := by
      rintro ⟨g, hg, hname, -⟩
      exact bne_iff_ne.mp (List.all_eq_true.mp hnames g hg) hname
    cases hfunctions : p.functions with
    | nil =>
        rw [hfunctions] at hfirst
        cases hfirst
    | cons f more =>
        rw [hfunctions] at hfirst
        have hoversized : Function.FirstOversized p.functions f :=
          ⟨[], more, hfunctions, nofun, of_decide_eq_true hfirst⟩
        exact ⟨_, p, f.name, f.position, hread, hcheck,
          (((assembly_outcome hread hcheck none).2.2 hmain).1 _ _).mpr ⟨f, hoversized, rfl, rfl⟩⟩

end Program

end Octet
