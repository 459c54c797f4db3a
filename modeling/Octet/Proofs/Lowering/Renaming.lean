import Mathlib.Logic.Equiv.Basic
import Octet.Proofs.Lowering.Limits
import Octet.Proofs.Typing.Renaming

/-!
The code of a renamed tree. Lowering keeps the names of the variables beside
their slots and looks them up, and nothing else is done with them: from a frame
with the new names a tree with the new names gets the same lines, and where it
cannot be lowered the errors differ in names and positions only. A program that
has been checked has no error that names a variable, so its code does not depend
on the names of its variables at all.
-/

namespace Octet

open Z80

variable {ρ : String → String} {φ : Position → Position}

/-! ### Renamed frames -/

def CodegenError.renamed (ρ : String → String) (φ : Position → Position) :
    CodegenError → CodegenError
  | unresolvedVariable x p => unresolvedVariable (ρ x) (φ p)
  | frameTooLarge f p => frameTooLarge f (φ p)
  | mainHasParameters p => mainHasParameters (φ p)

def Slot.renamed (ρ : String → String) (s : Slot) : Slot := { s with name := ρ s.name }

namespace Frame

def renamed (ρ : String → String) (φ : Position → Position) (f : Frame) : Frame :=
  { f with slots := f.slots.map (Slot.renamed ρ), position := φ f.position }

theorem openBlock_renamed (f : Frame) :
    (f.renamed ρ φ).openBlock = f.openBlock.renamed ρ φ := by
  simp [openBlock, renamed]

theorem closeBlock_renamed (f : Frame) :
    (f.renamed ρ φ).closeBlock = (f.closeBlock.1.renamed ρ φ, f.closeBlock.2) := by
  simp [closeBlock, renamed]

theorem pushLocal_renamed (x : String) (f : Frame) : (f.renamed ρ φ).pushLocal (ρ x) =
    ((f.pushLocal x).1.renamed ρ φ, (f.pushLocal x).2.mapError (CodegenError.renamed ρ φ)) := by
  have hlocals : (f.renamed ρ φ).locals = f.locals := rfl
  rw [pushLocal_eq, pushLocal_eq, hlocals]
  split <;> rfl

/-- The innermost variable of a name is also the innermost one of the new
name. -/
theorem lookup_renamed (hρ : Function.Injective ρ) (x : String) (f : Frame) :
    (f.renamed ρ φ).lookup (ρ x) = f.lookup x := by
  have hname (s : Slot) : ((s.renamed ρ).name == ρ x) = (s.name == x) :=
    decide_eq_decide.mpr hρ.eq_iff
  simp only [lookup, renamed, List.find?_map, Option.map_map, Function.comp_def, hname]
  rfl

theorem slotOf_renamed (hρ : Function.Injective ρ) (x : String) (p : Position) (f : Frame) :
    (f.renamed ρ φ).slotOf (ρ x) (φ p) =
      (f.slotOf x p).mapError (CodegenError.renamed ρ φ) := by
  rw [slotOf, slotOf, lookup_renamed hρ]
  cases f.lookup x <;> rfl

theorem parameterSlots_renamed (names : List String) :
    parameterSlots (names.map ρ) = (parameterSlots names).map (Slot.renamed ρ) := by
  induction names with
  | nil => rfl
  | cons name names ih =>
      rw [List.map_cons, parameterSlots, parameterSlots, ih, List.length_map]
      rfl

theorem enter_renamed (function : String) (names : List String) (p : Position) :
    enter function (names.map ρ) (φ p) = ((enter function names p).1.renamed ρ φ,
      (enter function names p).2.mapError (CodegenError.renamed ρ φ)) := by
  have hreach : (parameterSlots (names.map ρ)).all Slot.inReach =
      (parameterSlots names).all Slot.inReach := by
    rw [parameterSlots_renamed, List.all_map]
    rfl
  simp only [enter, hreach]
  split
  · simp [renamed, parameterSlots_renamed]
    rfl
  · rfl

end Frame

def Generator.renamed (ρ : String → String) (φ : Position → Position) (g : Generator) :
    Generator :=
  { g with frame := g.frame.renamed ρ φ }

/-- The same lines, with an error and a state that have other variables and
positions. -/
def Emission.renamed {α : Type} (ρ : String → String) (φ : Position → Position)
    (x : Emission α) : Emission α :=
  ⟨x.lines, x.outcome.mapError (CodegenError.renamed ρ φ), x.after.renamed ρ φ⟩

/-! ### Lowering side by side -/

namespace Gen

variable {α β : Type}

/-- From the state with the new names the second piece gives what the first one
gives from the old one. -/
def Renamed (ρ : String → String) (φ : Position → Position) (x x' : Gen α) : Prop :=
  ∀ g, x' (g.renamed ρ φ) = (x g).renamed ρ φ

theorem renamed_pure (a : α) : Renamed ρ φ (pure a : Gen α) (pure a) := fun _ => rfl

theorem renamed_fail (e : CodegenError) :
    Renamed ρ φ (fail e : Gen α) (fail (e.renamed ρ φ)) := fun _ => rfl

theorem renamed_emit (lines : List Line) : Renamed ρ φ (emit lines) (emit lines) := fun _ => rfl

theorem renamed_instrs (is : List Instr) : Renamed ρ φ (instrs is) (instrs is) := fun _ => rfl

theorem renamed_newLabel (stem : String) : Renamed ρ φ (newLabel stem) (newLabel stem) :=
  fun _ => rfl

/-- A piece and what comes behind it. -/
theorem Renamed.bind {x x' : Gen α} {f f' : α → Gen β} (hx : Renamed ρ φ x x')
    (hf : ∀ a, Renamed ρ φ (f a) (f' a)) : Renamed ρ φ (x >>= f) (x' >>= f') := by
  intro g
  show andThen x' f' (g.renamed ρ φ) = (andThen x f g).renamed ρ φ
  unfold andThen
  rw [hx g]
  rcases x g with ⟨lines, e | a, g'⟩
  · rfl
  · show (⟨lines ++ (f' a (g'.renamed ρ φ)).lines, (f' a (g'.renamed ρ φ)).outcome,
      (f' a (g'.renamed ρ φ)).after⟩ : Emission β) = _
    rw [hf a g']
    rfl

/-- A change of the frame. -/
theorem renamed_onFrame {f f' : Frame → Frame × Except CodegenError α}
    (h : ∀ frame, f' (frame.renamed ρ φ) =
      ((f frame).1.renamed ρ φ, (f frame).2.mapError (CodegenError.renamed ρ φ))) :
    Renamed ρ φ (onFrame f) (onFrame f') := by
  intro g
  have hframe : (g.renamed ρ φ).frame = g.frame.renamed ρ φ := rfl
  simp only [onFrame, hframe, h]
  rfl

theorem renamed_openBlock : Renamed ρ φ openBlock openBlock :=
  renamed_onFrame fun f => by rw [Frame.openBlock_renamed]; rfl

theorem renamed_closeBlock : Renamed ρ φ closeBlock closeBlock :=
  renamed_onFrame fun f => by rw [Frame.closeBlock_renamed]; rfl

theorem renamed_pushLocal (x : String) : Renamed ρ φ (pushLocal x) (pushLocal (ρ x)) :=
  renamed_onFrame fun f => f.pushLocal_renamed x

theorem renamed_slotOf (hρ : Function.Injective ρ) (x : String) (p : Position) :
    Renamed ρ φ (slotOf x p) (slotOf (ρ x) (φ p)) :=
  renamed_onFrame fun f => by rw [f.slotOf_renamed hρ]

end Gen

open Gen

/-! ### Trees -/

namespace Expr

mutual

/-- A renamed expression has the same code. -/
theorem lower_renamed (hρ : Function.Injective ρ) : (e : Expr) →
    Renamed ρ φ e.lower (e.renamed ρ φ).lower
  | number _ _ | boolean _ _ => by
      simp only [renamed, lower]
      exact renamed_instrs _
  | var x p => by
      simp only [renamed, lower]
      exact (renamed_slotOf hρ x p).bind fun _ => renamed_instrs _
  | negate e p => by
      simp only [renamed, lower]
      exact (lower_renamed hρ e).bind fun _ => renamed_instrs _
  | add l r p => by
      simp only [renamed, lower]
      exact (lower_renamed hρ l).bind fun _ => (renamed_instrs _).bind fun _ =>
        (lower_renamed hρ r).bind fun _ => renamed_instrs _
  | compare c l r p => by
      simp only [renamed, lower, Comparison.lower]
      exact (lower_renamed hρ l).bind fun _ => (renamed_instrs _).bind fun _ =>
        (lower_renamed hρ r).bind fun _ => (renamed_instrs _).bind fun _ =>
          (renamed_newLabel _).bind fun _ => renamed_emit _
  | call f args p => by
      simp only [renamed, lower, length_renamedAll]
      exact (lowerArguments_renamed hρ args).bind fun _ => renamed_instrs _

theorem lowerArguments_renamed (hρ : Function.Injective ρ) : (args : List Expr) →
    Renamed ρ φ (lowerArguments args) (lowerArguments (renamedAll ρ φ args))
  | [] => by
      simp only [renamedAll, lowerArguments]
      exact renamed_pure _
  | a :: args => by
      simp only [renamedAll, lowerArguments]
      exact (lower_renamed hρ a).bind fun _ => (renamed_instrs _).bind fun _ =>
        lowerArguments_renamed hρ args

end

end Expr

namespace Stmt

mutual

/-- A renamed statement has the same code. -/
theorem lower_renamed (hρ : Function.Injective ρ) : (s : Stmt) →
    Renamed ρ φ s.lower (s.renamed ρ φ).lower
  | block body p => by
      simp only [renamed, lower]
      exact renamed_openBlock.bind fun _ => (lowerAll_renamed hρ body).bind fun _ =>
        renamed_closeBlock.bind fun _ => renamed_instrs _
  | ifThen condition consequence p => by
      simp only [renamed, lower]
      exact (renamed_newLabel _).bind fun _ => (condition.lower_renamed hρ).bind fun _ =>
        (renamed_instrs _).bind fun _ => (lower_renamed hρ consequence).bind fun _ =>
          renamed_emit _
  | print value p => by
      simp only [renamed, lower]
      exact (value.lower_renamed hρ).bind fun _ => renamed_instrs _
  | declare x t value p => by
      simp only [renamed, lower]
      exact (value.lower_renamed hρ).bind fun _ => (renamed_instrs _).bind fun _ =>
        (renamed_pushLocal x).bind fun _ => renamed_pure _
  | assign x value p => by
      simp only [renamed, lower]
      exact (value.lower_renamed hρ).bind fun _ => (renamed_slotOf hρ x p).bind fun _ =>
        renamed_instrs _
  | ret value p => by
      simp only [renamed, lower]
      exact (value.lower_renamed hρ).bind fun _ => renamed_instrs _
  | evaluate value => by
      simp only [renamed, lower]
      exact value.lower_renamed hρ

theorem lowerAll_renamed (hρ : Function.Injective ρ) : (body : List Stmt) →
    Renamed ρ φ (lowerAll body) (lowerAll (renamedAll ρ φ body))
  | [] => by
      simp only [renamedAll, lowerAll]
      exact renamed_pure _
  | s :: body => by
      simp only [renamedAll, lowerAll]
      exact (lower_renamed hρ s).bind fun _ => lowerAll_renamed hρ body

end

end Stmt

namespace Function

theorem lower_renamed (hρ : Function.Injective ρ) (f : Function) :
    Renamed ρ φ f.lower (f.renamed ρ φ).lower := by
  have hnames : (f.renamed ρ φ).parameters.map Parameter.name =
      (f.parameters.map Parameter.name).map ρ := by
    simp [renamed, Parameter.renamed, Function.comp_def]
  have hbody : Renamed ρ φ f.body.lower (f.renamed ρ φ).body.lower := by
    have hblock := Stmt.lower_renamed (φ := φ) hρ f.body.toStmt
    simp only [Block.toStmt, Stmt.renamed] at hblock
    exact hblock
  simp only [lower, hnames]
  refine (renamed_onFrame fun _ => ?_).bind fun _ => (renamed_emit _).bind fun _ =>
    hbody.bind fun _ => renamed_instrs _
  exact Frame.enter_renamed f.name (f.parameters.map Parameter.name) f.position

theorem lowerAll_renamed (hρ : Function.Injective ρ) : (fs : List Function) →
    Renamed ρ φ (lowerAll fs) (lowerAll (fs.map (Function.renamed ρ φ)))
  | [] => renamed_pure _
  | f :: fs => by
      rw [List.map_cons, lowerAll, lowerAll]
      exact (renamed_emit _).bind fun _ => (f.lower_renamed hρ).bind fun _ =>
        lowerAll_renamed hρ fs

end Function

namespace Program

theorem main?_renamed (p : Program) :
    (p.renamed ρ φ).main? = p.main?.map (Function.renamed ρ φ) := by
  simp only [main?, renamed, List.find?_map]
  rfl

theorem lowerStart_renamed (p : Program) :
    Renamed ρ φ p.lowerStart (p.renamed ρ φ).lowerStart := by
  unfold lowerStart
  rw [main?_renamed]
  refine (renamed_emit _).bind fun _ => ?_
  cases p.main? with
  | none => exact renamed_instrs _
  | some main =>
      have hparameters : (main.renamed ρ φ).parameters.isEmpty = main.parameters.isEmpty := by
        simp [Function.renamed]
      simp only [Option.map_some, hparameters]
      cases main.parameters.isEmpty with
      | true => exact (renamed_instrs _).bind fun _ => renamed_instrs _
      | false => exact (renamed_fail _).bind fun _ => renamed_instrs _

/-- The code of a renamed program is that of the program, or the same error. -/
theorem assembly_renamed (hρ : Function.Injective ρ) (hφ : φ default = default) (p : Program)
    (snapshot : Option String) : (p.renamed ρ φ).assembly snapshot =
      (p.assembly snapshot).mapError (CodegenError.renamed ρ φ) := by
  have hlower : Renamed ρ φ (p.lower snapshot) ((p.renamed ρ φ).lower snapshot) := by
    rw [lower_eq, lower_eq]
    exact (renamed_emit _).bind fun _ => p.lowerStart_renamed.bind fun _ =>
      (Function.lowerAll_renamed hρ p.functions).bind fun _ => renamed_emit _
  have hinitial : Generator.initial.renamed ρ φ = Generator.initial := by
    simp [Generator.renamed, Generator.initial, Frame.renamed, Frame.empty, hφ]
  have hrun := hlower Generator.initial
  rw [hinitial] at hrun
  simp only [assembly, assemblyLines, hrun, Emission.renamed]
  cases (p.lower snapshot Generator.initial).outcome <;> rfl

/-- The error of a checked program does not name a variable. -/
theorem WellTyped.assembly_error {p : Program} (htyped : p.WellTyped) {snapshot : Option String}
    {e : CodegenError} (h : p.assembly snapshot = .error e) : e.renamed ρ id = e := by
  have houtcome : (p.lower snapshot Generator.initial).outcome = .error e := by
    simp only [assembly, assemblyLines] at h
    cases hout : (p.lower snapshot Generator.initial).outcome with
    | error e' =>
        rw [hout] at h
        exact congrArg _ (Except.error.inj h)
    | ok u =>
        rw [hout] at h
        cases h
  rcases (lower_ends htyped snapshot).error e houtcome with ⟨q, -, rfl⟩ | ⟨-, f, -, rfl⟩ <;> rfl

/-- Let a program that is read from tokens pass the check, and rename its
variables so that different names stay different and those of its functions
stay. The renamed program passes too and has the same code, or the same error. -/
theorem assembly_rename_variables {tokens : List Token} {p : Program}
    (hread : Program.ofTokens tokens = .ok p) (hcheck : p.typeCheck = .ok ())
    (hρ : Function.Injective ρ) (hnames : ∀ f ∈ p.functions, ρ f.name = f.name) :
    (p.renamed ρ id).typeCheck = .ok () ∧
      ∀ snapshot, (p.renamed ρ id).assembly snapshot = p.assembly snapshot := by
  have htyped := (ofTokens_shaped hread).typeCheck_iff.mp hcheck
  constructor
  · have hfixed : ∀ f ∈ p.functions, f.Fixed ρ := by
      intro f hf
      refine ⟨hnames f hf, fun x hx => ?_⟩
      obtain ⟨g, hg, rfl⟩ := htyped.callees hf x hx
      exact hnames g hg
    rw [typeCheck_renamed hρ hfixed, hcheck]
    rfl
  · intro snapshot
    rw [assembly_renamed hρ rfl]
    cases h : p.assembly snapshot with
    | ok text => rfl
    | error e => exact congrArg _ (htyped.assembly_error h)

/-- Two names change places, one of them that of a parameter and of the variable
that hides it. -/
theorem assembly_rename_variables_swapped :
    ∃ tokens p ρ, Program.ofTokens tokens = .ok p ∧ p.typeCheck = .ok () ∧
      Function.Injective ρ ∧
      (p.renamed ρ id).functions.map (fun f => f.parameters.map Parameter.name) = [["b"]] ∧
      (p.renamed ρ id).typeCheck = .ok () ∧
      ∀ snapshot, (p.renamed ρ id).assembly snapshot = p.assembly snapshot := by
  obtain ⟨p, hread, hcheck, htest⟩ := checked_of_test ((Token.scan
    "def f(a: u8) -> u8:
    let b: u8 = a + 1
    if a == b:
        let a: bool = true
        if a:
            b = f(b)
    return b
").toOption.getD [])
    (fun p => p.functions.map Function.name == ["f"] &&
      (p.renamed (Equiv.swap "a" "b") id).functions.map
        (fun f => f.parameters.map Parameter.name) == [["b"]]) (by decide +kernel)
  simp only [Bool.and_eq_true, beq_iff_eq] at htest
  have hnames : ∀ f ∈ p.functions, Equiv.swap "a" "b" f.name = f.name := by
    intro f hf
    have hmem : f.name ∈ p.functions.map Function.name := List.mem_map_of_mem hf
    rw [htest.1, List.mem_singleton] at hmem
    rw [hmem]
    decide
  exact ⟨_, p, Equiv.swap "a" "b", hread, hcheck, Equiv.injective _, htest.2,
    assembly_rename_variables hread hcheck (Equiv.injective _) hnames⟩

end Program

end Octet
