import Octet.Lowering.Program
import Octet.Proofs.Result

/-!
What lowering writes. `Gen.Emits` says that a piece of a program has code, and
which; each way of putting pieces together gets one equivalence, and each kind
of expression and statement the code that it is made of. From there on nobody
looks at how `Gen` is made.

The first use of it is what lowering does to the frame. An expression leaves
it alone, and a statement adds the variables that it declares in the block
around it: a block gives up its own, so that nothing of it is seen from outside.
-/

namespace Octet

open Z80 (Line Instr)

/-! ### Pieces of code -/

namespace Gen

variable {α β : Type}

/-- The piece has code, a result and a state behind it. -/
def Emits (x : Gen α) (g : Generator) (code : List Line) (a : α) (g' : Generator) : Prop :=
  x g = ⟨code, .ok a, g'⟩

theorem bind_emits {x : Gen α} {f : α → Gen β} {g g' : Generator} {code : List Line} {b : β} :
    (x >>= f).Emits g code b g' ↔
      ∃ c₁ a g₁ c₂, x.Emits g c₁ a g₁ ∧ (f a).Emits g₁ c₂ b g' ∧ code = c₁ ++ c₂ := by
  show andThen x f g = _ ↔ _
  unfold andThen Emits
  rcases x g with ⟨lines, outcome | a, g₁⟩
  · simp
  · constructor
    · intro h
      obtain ⟨hlines, houtcome, hafter⟩ := Emission.mk.inj h
      refine ⟨lines, a, g₁, (f a g₁).lines, rfl, ?_, hlines.symm⟩
      rw [← houtcome, ← hafter]
    · rintro ⟨_, _, _, c₂, ⟨⟩, h, rfl⟩
      simp only [h]

theorem pure_emits {a b : α} {g g' : Generator} {code : List Line} :
    (pure a : Gen α).Emits g code b g' ↔ code = [] ∧ b = a ∧ g' = g := by
  show (⟨[], .ok a, g⟩ : Emission α) = _ ↔ _
  simp [eq_comm]

theorem emit_emits {lines code : List Line} {g g' : Generator} {u : Unit} :
    (emit lines).Emits g code u g' ↔ code = lines ∧ g' = g := by
  show (⟨lines, .ok (), g⟩ : Emission Unit) = _ ↔ _
  simp [eq_comm]

theorem instrs_emits {is : List Instr} {code : List Line} {g g' : Generator} {u : Unit} :
    (instrs is).Emits g code u g' ↔ code = is.map .instr ∧ g' = g :=
  emit_emits

theorem newLabel_emits {stem label : String} {code : List Line} {g g' : Generator} :
    (newLabel stem).Emits g code label g' ↔
      code = [] ∧ label = stem ++ "_" ++ toString g.labels ∧
        g' = { g with labels := g.labels + 1 } := by
  show (⟨[], .ok _, _⟩ : Emission String) = _ ↔ _
  simp [eq_comm]

theorem onFrame_emits {f : Frame → Frame × Except CodegenError α} {a : α} {code : List Line}
    {g g' : Generator} :
    (onFrame f).Emits g code a g' ↔
      code = [] ∧ f g.frame = (g'.frame, .ok a) ∧ g'.labels = g.labels := by
  show (⟨[], (f g.frame).2, { g with frame := (f g.frame).1 }⟩ : Emission α) = _ ↔ _
  obtain ⟨frame', labels'⟩ := g'
  rcases f g.frame with ⟨frame, outcome⟩
  simp only [Emission.mk.injEq, Generator.mk.injEq, Prod.mk.injEq]
  grind

end Gen

/-! ### Frames -/

namespace Frame

def declare (x : String) (f : Frame) : Frame :=
  { f with slots := localSlot x (f.locals + 1) :: f.slots, locals := f.locals + 1 }

/-- More variables on the stack, the last one first. -/
def declareAll (xs : List String) (f : Frame) : Frame := xs.foldr declare f

@[simp] theorem declareAll_nil (f : Frame) : f.declareAll [] = f := rfl

@[simp] theorem declareAll_cons (x : String) (xs : List String) (f : Frame) :
    f.declareAll (x :: xs) = (f.declareAll xs).declare x := rfl

theorem declareAll_append (xs ys : List String) (f : Frame) :
    f.declareAll (xs ++ ys) = (f.declareAll ys).declareAll xs := by
  simp [declareAll]

@[simp] theorem tooLarge_declareAll (xs : List String) (f : Frame) :
    (f.declareAll xs).tooLarge = f.tooLarge := by
  induction xs with
  | nil => rfl
  | cons x xs ih => rw [← ih]; rfl

@[simp] theorem locals_declareAll (xs : List String) (f : Frame) :
    (f.declareAll xs).locals = f.locals + xs.length := by
  induction xs with
  | nil => rfl
  | cons x xs ih =>
      rw [declareAll_cons, List.length_cons, ← Nat.add_assoc, ← ih]
      rfl

theorem declareAll_eq (xs : List String) (f : Frame) :
    ∃ slots, f.declareAll xs =
      { f with slots := slots ++ f.slots, locals := f.locals + xs.length } ∧
      slots.length = xs.length := by
  induction xs with
  | nil => exact ⟨[], rfl, rfl⟩
  | cons x xs ih =>
      obtain ⟨slots, h, hlen⟩ := ih
      refine ⟨localSlot x (f.locals + xs.length + 1) :: slots, ?_, by simp [hlen]⟩
      rw [declareAll_cons, h]
      rfl

/-- A block that is closed leaves the frame that it was opened in. -/
theorem closeBlock_declareAll (xs : List String) (f : Frame) :
    (f.openBlock.declareAll xs).closeBlock = (f, xs.length) := by
  obtain ⟨slots, h, hlen⟩ := declareAll_eq xs f.openBlock
  rw [h]
  simp [closeBlock, openBlock, ← hlen]

theorem pushLocal_eq {x : String} {f : Frame} :
    f.pushLocal x =
      if f.locals < 64 then (f.declare x, .ok (localSlot x (f.locals + 1)).displacement)
      else ({ f with locals := f.locals + 1 }, .error f.tooLarge) := by
  have hreach : (localSlot x (f.locals + 1)).inReach = decide (f.locals < 64) := by
    have hdisplacement : (localSlot x (f.locals + 1)).displacement = 1 - 2 * (f.locals + 1 : Nat) :=
      rfl
    rw [Bool.eq_iff_iff, Slot.inReach, hdisplacement, Bool.and_eq_true, decide_eq_true_eq,
      decide_eq_true_eq, decide_eq_true_eq]
    omega
  unfold pushLocal
  simp only [hreach, decide_eq_true_eq]
  rfl

end Frame

namespace Gen

theorem slotOf_emits {x : String} {p : Position} {d : Int} {code : List Line}
    {g g' : Generator} :
    (slotOf x p).Emits g code d g' ↔ code = [] ∧ g.frame.lookup x = some d ∧ g' = g := by
  rw [slotOf, onFrame_emits, Frame.slotOf]
  obtain ⟨frame', labels'⟩ := g'
  obtain ⟨frame, labels⟩ := g
  cases frame.lookup x with
  | none => simp
  | some d' =>
      simp only [Prod.mk.injEq, Except.ok.injEq, Option.some.injEq, Generator.mk.injEq]
      grind

theorem openBlock_emits {u : Unit} {code : List Line} {g g' : Generator} :
    openBlock.Emits g code u g' ↔ code = [] ∧ g' = { g with frame := g.frame.openBlock } := by
  rw [openBlock, onFrame_emits]
  obtain ⟨frame', labels'⟩ := g'
  simp [eq_comm]

theorem closeBlock_emits {n : Nat} {code : List Line} {g g' : Generator} :
    closeBlock.Emits g code n g' ↔
      code = [] ∧ g.frame.closeBlock = (g'.frame, n) ∧ g'.labels = g.labels := by
  rw [closeBlock, onFrame_emits]
  simp [Prod.ext_iff]

theorem pushLocal_emits {x : String} {d : Int} {code : List Line} {g g' : Generator} :
    (pushLocal x).Emits g code d g' ↔
      code = [] ∧ g.frame.locals < 64 ∧ d = 1 - 2 * (g.frame.locals + 1 : Nat) ∧
        g' = { g with frame := g.frame.declare x } := by
  rw [pushLocal, onFrame_emits, Frame.pushLocal_eq]
  obtain ⟨frame', labels'⟩ := g'
  split
  · next h =>
      simp only [Frame.localSlot, Prod.mk.injEq, Except.ok.injEq, Generator.mk.injEq]
      grind
  · next h => simp [h]

end Gen

/-! ### What each piece writes

The code of an expression or a statement, from the code of its parts. -/

section

open Gen

variable {g g' : Generator} {code : List Line} {u : Unit} {p : Position}

def numbered (stem : String) (number : Nat) : String := stem ++ "_" ++ toString number

theorem Comparison.emits {c : Comparison} (h : c.lower.Emits g code u g') :
    code = [.instr .compareB, .instr (.loadA (truth !c.whenSame)),
        .instr (.jumpShortNZ (numbered "cmp_end" g.labels)),
        .instr (.loadA (truth c.whenSame)), .label (numbered "cmp_end" g.labels)] ∧
      g' = { g with labels := g.labels + 1 } := by
  obtain ⟨_, label, g₁, _, hlabel, hemit, rfl⟩ := bind_emits.mp h
  obtain ⟨rfl, rfl, rfl⟩ := newLabel_emits.mp hlabel
  obtain ⟨rfl, rfl⟩ := emit_emits.mp hemit
  exact ⟨rfl, rfl⟩

namespace Expr

theorem emits_var {x : String} (h : (var x p).lower.Emits g code u g') :
    ∃ d, g.frame.lookup x = some d ∧ code = [.instr (.fetchA d)] ∧ g' = g := by
  obtain ⟨_, d, g₁, _, hslot, hfetch, rfl⟩ := bind_emits.mp h
  obtain ⟨rfl, hd, rfl⟩ := slotOf_emits.mp hslot
  obtain ⟨rfl, rfl⟩ := instrs_emits.mp hfetch
  exact ⟨d, hd, rfl, rfl⟩

theorem emits_negate {e : Expr} (h : (negate e p).lower.Emits g code u g') :
    ∃ c, e.lower.Emits g c () g' ∧ code = c ++ [.instr .neg] := by
  obtain ⟨c, _, g₁, _, he, hneg, rfl⟩ := bind_emits.mp h
  obtain ⟨rfl, rfl⟩ := instrs_emits.mp hneg
  exact ⟨c, he, rfl⟩

theorem emits_add {l r : Expr} (h : (add l r p).lower.Emits g code u g') :
    ∃ c₁ g₁ c₂, l.lower.Emits g c₁ () g₁ ∧ r.lower.Emits g₁ c₂ () g' ∧
      code = c₁ ++ .instr .pushAF :: (c₂ ++ [.instr .popBC, .instr .addAB]) := by
  obtain ⟨c₁, _, g₁, _, hl, h₁, rfl⟩ := bind_emits.mp h
  obtain ⟨_, _, _, _, hpush, h₂, rfl⟩ := bind_emits.mp h₁
  obtain ⟨c₂, _, g₂, _, hr, hadd, rfl⟩ := bind_emits.mp h₂
  obtain ⟨rfl, rfl⟩ := instrs_emits.mp hpush
  obtain ⟨rfl, rfl⟩ := instrs_emits.mp hadd
  exact ⟨c₁, _, c₂, hl, hr, rfl⟩

theorem emits_compare {c : Comparison} {l r : Expr}
    (h : (compare c l r p).lower.Emits g code u g') :
    ∃ c₁ g₁ c₂ g₂ c₃, l.lower.Emits g c₁ () g₁ ∧ r.lower.Emits g₁ c₂ () g₂ ∧
      c.lower.Emits g₂ c₃ () g' ∧
      code = c₁ ++ .instr .pushAF :: (c₂ ++ .instr .popBC :: c₃) := by
  obtain ⟨c₁, _, g₁, _, hl, h₁, rfl⟩ := bind_emits.mp h
  obtain ⟨_, _, _, _, hpush, h₂, rfl⟩ := bind_emits.mp h₁
  obtain ⟨c₂, _, g₂, _, hr, h₃, rfl⟩ := bind_emits.mp h₂
  obtain ⟨_, _, _, c₃, hpop, hc, rfl⟩ := bind_emits.mp h₃
  obtain ⟨rfl, rfl⟩ := instrs_emits.mp hpush
  obtain ⟨rfl, rfl⟩ := instrs_emits.mp hpop
  exact ⟨c₁, _, c₂, _, c₃, hl, hr, hc, rfl⟩

theorem emits_call {f : String} {args : List Expr}
    (h : (call f args p).lower.Emits g code u g') :
    ∃ c, (lowerArguments args).Emits g c () g' ∧
      code = c ++ .instr (.call (functionLabel f)) ::
        List.replicate args.length (.instr .popBC) := by
  obtain ⟨c, _, g₁, _, hargs, hcall, rfl⟩ := bind_emits.mp h
  obtain ⟨rfl, rfl⟩ := instrs_emits.mp hcall
  exact ⟨c, hargs, by simp⟩

theorem emits_argument {a : Expr} {args : List Expr}
    (h : (lowerArguments (a :: args)).Emits g code u g') :
    ∃ c₁ g₁ c₂, a.lower.Emits g c₁ () g₁ ∧ (lowerArguments args).Emits g₁ c₂ () g' ∧
      code = c₁ ++ .instr .pushAF :: c₂ := by
  obtain ⟨c₁, _, g₁, _, ha, h₁, rfl⟩ := bind_emits.mp h
  obtain ⟨_, _, _, c₂, hpush, hargs, rfl⟩ := bind_emits.mp h₁
  obtain ⟨rfl, rfl⟩ := instrs_emits.mp hpush
  exact ⟨c₁, _, c₂, ha, hargs, rfl⟩

mutual

/-- An expression leaves the frame alone. -/
theorem lower_frame : (e : Expr) → {g g' : Generator} → {code : List Line} → {u : Unit} →
    e.lower.Emits g code u g' → g'.frame = g.frame
  | number n p, g, g', code, u, h => by rw [(instrs_emits.mp h).2]
  | boolean b p, g, g', code, u, h => by rw [(instrs_emits.mp h).2]
  | var x p, g, g', code, u, h => by
      obtain ⟨d, -, -, rfl⟩ := emits_var h
      rfl
  | negate e p, g, g', code, u, h => by
      obtain ⟨c, he, -⟩ := emits_negate h
      exact lower_frame e he
  | add l r p, g, g', code, u, h => by
      obtain ⟨c₁, g₁, c₂, hl, hr, -⟩ := emits_add h
      exact (lower_frame r hr).trans (lower_frame l hl)
  | compare c l r p, g, g', code, u, h => by
      obtain ⟨c₁, g₁, c₂, g₂, c₃, hl, hr, hc, -⟩ := emits_compare h
      obtain ⟨-, rfl⟩ := Comparison.emits hc
      exact (lower_frame r hr).trans (lower_frame l hl)
  | call f args p, g, g', code, u, h => by
      obtain ⟨c, hargs, -⟩ := emits_call h
      exact lowerArguments_frame args hargs

theorem lowerArguments_frame : (args : List Expr) → {g g' : Generator} → {code : List Line} →
    {u : Unit} → (lowerArguments args).Emits g code u g' → g'.frame = g.frame
  | [], g, g', code, u, h => by rw [(pure_emits.mp h).2.2]
  | a :: args, g, g', code, u, h => by
      obtain ⟨c₁, g₁, c₂, ha, hargs, -⟩ := emits_argument h
      exact (lowerArguments_frame args hargs).trans (lower_frame a ha)

end

end Expr

namespace Stmt

/-- The variables that a statement declares in the block around it. -/
def declared : Stmt → List String
  | declare x _ _ _ => [x]
  | ifThen _ consequence _ => consequence.declared
  | block _ _ | print _ _ | assign _ _ _ | ret _ _ | evaluate _ => []

def declaredAll : List Stmt → List String
  | [] => []
  | s :: body => declaredAll body ++ s.declared

theorem emits_ifThen {condition : Expr} {consequence : Stmt}
    (h : (ifThen condition consequence p).lower.Emits g code u g') :
    ∃ c₁ g₁ c₂, condition.lower.Emits { g with labels := g.labels + 1 } c₁ () g₁ ∧
      consequence.lower.Emits g₁ c₂ () g' ∧
      code = c₁ ++ .instr (.compare 1) :: .instr (.jumpNZ (numbered "if_end" g.labels)) ::
        (c₂ ++ [.label (numbered "if_end" g.labels)]) := by
  obtain ⟨_, label, _, _, hlabel, h₁, rfl⟩ := bind_emits.mp h
  obtain ⟨rfl, rfl, rfl⟩ := newLabel_emits.mp hlabel
  obtain ⟨c₁, _, g₁, _, hcondition, h₂, rfl⟩ := bind_emits.mp h₁
  obtain ⟨_, _, _, _, hjump, h₃, rfl⟩ := bind_emits.mp h₂
  obtain ⟨c₂, _, g₂, _, hconsequence, hdone, rfl⟩ := bind_emits.mp h₃
  obtain ⟨rfl, rfl⟩ := instrs_emits.mp hjump
  obtain ⟨rfl, rfl⟩ := emit_emits.mp hdone
  exact ⟨c₁, _, c₂, hcondition, hconsequence, rfl⟩

theorem emits_print {value : Expr} (h : (print value p).lower.Emits g code u g') :
    ∃ c, value.lower.Emits g c () g' ∧ code = c ++ [.instr .printA] := by
  obtain ⟨c, _, g₁, _, hvalue, hprint, rfl⟩ := bind_emits.mp h
  obtain ⟨rfl, rfl⟩ := instrs_emits.mp hprint
  exact ⟨c, hvalue, rfl⟩

theorem emits_declare {x : String} {t : Ty} {value : Expr}
    (h : (declare x t value p).lower.Emits g code u g') :
    ∃ c g₁, value.lower.Emits g c () g₁ ∧ g₁.frame.locals < 64 ∧
      g' = { g₁ with frame := g₁.frame.declare x } ∧ code = c ++ [.instr .pushAF] := by
  obtain ⟨c, _, g₁, _, hvalue, h₁, rfl⟩ := bind_emits.mp h
  obtain ⟨_, _, _, _, hpush, h₂, rfl⟩ := bind_emits.mp h₁
  obtain ⟨_, _, _, _, hlocal, hdone, rfl⟩ := bind_emits.mp h₂
  obtain ⟨rfl, rfl⟩ := instrs_emits.mp hpush
  obtain ⟨rfl, hroom, -, rfl⟩ := pushLocal_emits.mp hlocal
  obtain ⟨rfl, -, rfl⟩ := pure_emits.mp hdone
  exact ⟨c, _, hvalue, hroom, rfl, rfl⟩

theorem emits_assign {x : String} {value : Expr}
    (h : (assign x value p).lower.Emits g code u g') :
    ∃ c d, value.lower.Emits g c () g' ∧ g'.frame.lookup x = some d ∧
      code = c ++ [.instr (.storeA d)] := by
  obtain ⟨c, _, g₁, _, hvalue, h₁, rfl⟩ := bind_emits.mp h
  obtain ⟨_, d, _, _, hslot, hstore, rfl⟩ := bind_emits.mp h₁
  obtain ⟨rfl, hd, rfl⟩ := slotOf_emits.mp hslot
  obtain ⟨rfl, rfl⟩ := instrs_emits.mp hstore
  exact ⟨c, d, hvalue, hd, rfl⟩

def leave : List Line := [.instr .loadSPIX, .instr .popIX, .instr .ret]

theorem emits_ret {value : Expr} (h : (ret value p).lower.Emits g code u g') :
    ∃ c, value.lower.Emits g c () g' ∧ code = c ++ leave := by
  obtain ⟨c, _, g₁, _, hvalue, hleave, rfl⟩ := bind_emits.mp h
  obtain ⟨rfl, rfl⟩ := instrs_emits.mp hleave
  exact ⟨c, hvalue, rfl⟩

theorem emits_cons {s : Stmt} {body : List Stmt}
    (h : (lowerAll (s :: body)).Emits g code u g') :
    ∃ c₁ g₁ c₂, s.lower.Emits g c₁ () g₁ ∧ (lowerAll body).Emits g₁ c₂ () g' ∧
      code = c₁ ++ c₂ := by
  obtain ⟨c₁, _, g₁, c₂, hs, hbody, rfl⟩ := bind_emits.mp h
  exact ⟨c₁, g₁, c₂, hs, hbody, rfl⟩

/-- The frame behind a block and the number of variables to be taken off are
known only from what its statements do to the frame. -/
theorem emits_block_of_frame {body : List Stmt}
    (hframe : ∀ {g g' code u}, (lowerAll body).Emits g code u g' →
      g'.frame = g.frame.declareAll (declaredAll body))
    (h : (block body p).lower.Emits g code u g') :
    ∃ c g₁, (lowerAll body).Emits { g with frame := g.frame.openBlock } c () g₁ ∧
      g' = { g₁ with frame := g.frame } ∧
      code = c ++ List.replicate (declaredAll body).length (.instr .popBC) := by
  obtain ⟨_, _, _, _, hopen, h₁, rfl⟩ := bind_emits.mp h
  obtain ⟨rfl, rfl⟩ := openBlock_emits.mp hopen
  obtain ⟨c, _, g₁, _, hbody, h₂, rfl⟩ := bind_emits.mp h₁
  obtain ⟨_, count, g₂, _, hclose, hpops, rfl⟩ := bind_emits.mp h₂
  obtain ⟨rfl, hclosed, hlabels⟩ := closeBlock_emits.mp hclose
  obtain ⟨rfl, rfl⟩ := instrs_emits.mp hpops
  rw [hframe hbody, Frame.closeBlock_declareAll] at hclosed
  obtain ⟨hg, rfl⟩ := Prod.mk.inj hclosed
  refine ⟨c, g₁, hbody, ?_, by simp⟩
  rw [hg, ← hlabels]

mutual

/-- Behind a statement the frame has the variables that it declares. -/
theorem lower_frame : (s : Stmt) → {g g' : Generator} → {code : List Line} → {u : Unit} →
    s.lower.Emits g code u g' → g'.frame = g.frame.declareAll s.declared
  | block body p, g, g', code, u, h => by
      obtain ⟨c, g₁, -, rfl, -⟩ := emits_block_of_frame (lowerAll_frame body) h
      rfl
  | ifThen condition consequence p, g, g', code, u, h => by
      obtain ⟨c₁, g₁, c₂, hcondition, hconsequence, -⟩ := emits_ifThen h
      rw [lower_frame consequence hconsequence, Expr.lower_frame condition hcondition]
      rfl
  | print value p, g, g', code, u, h => by
      obtain ⟨c, hvalue, -⟩ := emits_print h
      exact Expr.lower_frame value hvalue
  | declare x t value p, g, g', code, u, h => by
      obtain ⟨c, g₁, hvalue, -, rfl, -⟩ := emits_declare h
      show g₁.frame.declare x = g.frame.declare x
      rw [Expr.lower_frame value hvalue]
  | assign x value p, g, g', code, u, h => by
      obtain ⟨c, d, hvalue, -⟩ := emits_assign h
      exact Expr.lower_frame value hvalue
  | ret value p, g, g', code, u, h => by
      obtain ⟨c, hvalue, -⟩ := emits_ret h
      exact Expr.lower_frame value hvalue
  | evaluate value, g, g', code, u, h => Expr.lower_frame value h

theorem lowerAll_frame : (body : List Stmt) → {g g' : Generator} → {code : List Line} →
    {u : Unit} → (lowerAll body).Emits g code u g' →
    g'.frame = g.frame.declareAll (declaredAll body)
  | [], g, g', code, u, h => by
      rw [(pure_emits.mp h).2.2]
      rfl
  | s :: body, g, g', code, u, h => by
      obtain ⟨c₁, g₁, c₂, hs, hbody, -⟩ := emits_cons h
      rw [lowerAll_frame body hbody, lower_frame s hs, declaredAll, Frame.declareAll_append]

end

theorem emits_block {body : List Stmt} (h : (block body p).lower.Emits g code u g') :
    ∃ c g₁, (lowerAll body).Emits { g with frame := g.frame.openBlock } c () g₁ ∧
      g' = { g₁ with frame := g.frame } ∧
      code = c ++ List.replicate (declaredAll body).length (.instr .popBC) :=
  emits_block_of_frame (lowerAll_frame body) h

end Stmt

theorem Function.emits {f : Function} (h : f.lower.Emits g code u g') :
    ∃ frame c, Frame.enter f.name (f.parameters.map Parameter.name) f.position = (frame, .ok ()) ∧
      f.body.toStmt.lower.Emits ⟨frame, g.labels⟩ c () g' ∧
      code = .label (functionLabel f.name) :: .instr .pushIX :: .instr .clearIX ::
        .instr .addIXSP :: (c ++ Stmt.leave) := by
  obtain ⟨_, _, g₁, _, henter, h₁, rfl⟩ := bind_emits.mp h
  obtain ⟨rfl, hframe, hlabels⟩ := onFrame_emits.mp henter
  obtain ⟨_, _, _, _, hlines, h₂, rfl⟩ := bind_emits.mp h₁
  obtain ⟨rfl, rfl⟩ := emit_emits.mp hlines
  obtain ⟨c, _, g₂, _, hbody, hleave, rfl⟩ := bind_emits.mp h₂
  obtain ⟨rfl, rfl⟩ := instrs_emits.mp hleave
  refine ⟨_, c, hframe, ?_, rfl⟩
  rw [← hlabels]
  exact hbody

theorem Function.emits_cons {f : Function} {fs : List Function}
    (h : (lowerAll (f :: fs)).Emits g code u g') :
    ∃ c₁ g₁ c₂, f.lower.Emits g c₁ () g₁ ∧ (lowerAll fs).Emits g₁ c₂ () g' ∧
      code = .blank :: (c₁ ++ c₂) := by
  obtain ⟨_, _, _, _, hblank, h₁, rfl⟩ := bind_emits.mp h
  obtain ⟨rfl, rfl⟩ := emit_emits.mp hblank
  obtain ⟨c₁, _, g₁, c₂, hf, hfs, rfl⟩ := bind_emits.mp h₁
  exact ⟨c₁, g₁, c₂, hf, hfs, rfl⟩

namespace Program

variable {program : Program} {snapshot : Option String}

def header (snapshot : Option String) : List Line :=
  (if snapshot.isSome then [.directive .device] else []) ++ [.directive .origin, .blank]

def start (p : Program) : List Line :=
  .label "start" ::
    ((if p.main?.isSome then [.instr (.call (functionLabel "main"))] else []) ++ [.instr .ret])

def trailer : Option String → List Line
  | none => []
  | some name => [.blank, .directive (.snapshot name)]

theorem emits_start (h : program.lowerStart.Emits g code u g') :
    (∀ main, program.main? = some main → main.parameters = []) ∧ code = program.start ∧
      g' = g := by
  obtain ⟨_, _, _, _, hlabel, h₁, rfl⟩ := bind_emits.mp h
  obtain ⟨rfl, rfl⟩ := emit_emits.mp hlabel
  unfold start
  cases hmain : program.main? with
  | none =>
      rw [hmain] at h₁
      obtain ⟨rfl, rfl⟩ := instrs_emits.mp h₁
      exact ⟨by simp, rfl, rfl⟩
  | some main =>
      rw [hmain] at h₁
      by_cases hparameters : main.parameters = []
      · simp only [hparameters, List.isEmpty_nil, if_true] at h₁
        obtain ⟨_, _, _, _, hcall, hret, rfl⟩ := bind_emits.mp h₁
        obtain ⟨rfl, rfl⟩ := instrs_emits.mp hcall
        obtain ⟨rfl, rfl⟩ := instrs_emits.mp hret
        refine ⟨?_, rfl, rfl⟩
        rintro _ ⟨⟩
        exact hparameters
      · have hempty : main.parameters.isEmpty = false := by simpa using hparameters
        simp only [hempty, Bool.false_eq_true, if_false] at h₁
        obtain ⟨_, _, _, _, hfail, -, -⟩ := bind_emits.mp h₁
        cases congrArg Emission.outcome hfail

theorem lower_eq (p : Program) (snapshot : Option String) : p.lower snapshot = (do
    Gen.emit (header snapshot)
    p.lowerStart
    Function.lowerAll p.functions
    Gen.emit (trailer snapshot)) := by
  cases snapshot <;> rfl

theorem emits (h : (program.lower snapshot).Emits g code u g') :
    (∀ main, program.main? = some main → main.parameters = []) ∧
      ∃ c, (Function.lowerAll program.functions).Emits g c () g' ∧
        code = header snapshot ++ (program.start ++ (c ++ trailer snapshot)) := by
  rw [lower_eq] at h
  obtain ⟨_, _, _, _, hheader, h₁, rfl⟩ := bind_emits.mp h
  obtain ⟨rfl, rfl⟩ := emit_emits.mp hheader
  obtain ⟨_, _, _, _, hstart, h₂, rfl⟩ := bind_emits.mp h₁
  obtain ⟨hmain, rfl, rfl⟩ := emits_start hstart
  obtain ⟨c, _, g₁, _, hfunctions, htrailer, rfl⟩ := bind_emits.mp h₂
  obtain ⟨rfl, rfl⟩ := emit_emits.mp htrailer
  exact ⟨hmain, c, hfunctions, rfl⟩

theorem assemblyLines_ok {lines : List Line}
    (h : program.assemblyLines snapshot = .ok lines) :
    ∃ g', (program.lower snapshot).Emits Generator.initial lines () g' := by
  obtain ⟨u, houtcome, rfl⟩ := Result.map_ok.mp h
  refine ⟨(program.lower snapshot Generator.initial).after, ?_⟩
  unfold Emits
  rw [← houtcome]

theorem assembly_ok {text : String} :
    program.assembly snapshot = .ok text ↔
      ∃ lines, program.assemblyLines snapshot = .ok lines ∧ Z80.Line.join lines = text :=
  Result.map_ok

end Program

end

end Octet
