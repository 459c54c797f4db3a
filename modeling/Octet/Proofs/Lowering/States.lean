import Octet.Proofs.Lowering.Activation
import Octet.Proofs.Lowering.Emission

/-!
The states that code generation comes through, and what is true of their frames.
A piece that has no code leaves a state behind, too, in which blocks may be open
and variables counted that nobody sees. In all of them a slot that can be seen is
the slot of a parameter, or that of a local variable which is still counted.
-/

namespace Octet

/-! ### States on the way -/

/-- The states that code generation comes through, with the number of parameters
of the function at hand. -/
inductive Generator.Reached : Nat → Generator → Prop where
  | initial : Reached 0 Generator.initial
  | newLabel {n : Nat} {g : Generator} : Reached n g → Reached n { g with labels := g.labels + 1 }
  | enter {n : Nat} {g : Generator} (function : String) (parameters : List String)
      (position : Position) : Reached n g →
      Reached parameters.length { g with frame := (Frame.enter function parameters position).1 }
  | openBlock {n : Nat} {g : Generator} : Reached n g →
      Reached n { g with frame := g.frame.openBlock }
  | closeBlock {n : Nat} {g : Generator} : Reached n g →
      Reached n { g with frame := g.frame.closeBlock.1 }
  | pushLocal {n : Nat} {g : Generator} (x : String) : Reached n g →
      Reached n { g with frame := (g.frame.pushLocal x).1 }

namespace Gen

variable {α β : Type} {R : Generator → Prop}

/-- From the states of a kind the piece leads to such states, whether it has code
or not. -/
def Leads (R : Generator → Prop) (x : Gen α) : Prop := ∀ g, R g → R (x g).after

/-- What statements do to a state leads to states of the kind. -/
structure Lasting (R : Generator → Prop) : Prop where
  newLabel : ∀ g, R g → R { g with labels := g.labels + 1 }
  openBlock : ∀ g, R g → R { g with frame := g.frame.openBlock }
  closeBlock : ∀ g, R g → R { g with frame := g.frame.closeBlock.1 }
  pushLocal : ∀ x g, R g → R { g with frame := (g.frame.pushLocal x).1 }

theorem leads_pure (a : α) : Leads R (pure a : Gen α) := fun _ h => h

theorem leads_fail (e : CodegenError) : Leads R (fail e : Gen α) := fun _ h => h

theorem leads_emit (lines : List Z80.Line) : Leads R (emit lines) := fun _ h => h

theorem leads_instrs (is : List Z80.Instr) : Leads R (instrs is) := fun _ h => h

theorem leads_onFrame {f : Frame → Frame × Except CodegenError α}
    (h : ∀ g, R g → R { g with frame := (f g.frame).1 }) : Leads R (onFrame f) := h

theorem leads_slotOf (x : String) (p : Position) : Leads R (slotOf x p) := fun _ h => h

theorem Leads.bind {x : Gen α} {f : α → Gen β} (hx : Leads R x) (hf : ∀ a, Leads R (f a)) :
    Leads R (x >>= f) := by
  intro g hg
  have hfirst := hx g hg
  show R (andThen x f g).after
  unfold andThen
  rcases h : x g with ⟨lines, e | a, g₁⟩ <;> rw [h] at hfirst
  · exact hfirst
  · exact hf a g₁ hfirst

theorem reached_lasting (n : Nat) : Lasting (Generator.Reached n) :=
  ⟨fun _ h => h.newLabel, fun _ h => h.openBlock, fun _ h => h.closeBlock,
    fun x _ h => h.pushLocal x⟩

end Gen

open Gen

theorem Comparison.lower_leads {R : Generator → Prop} (hR : Lasting R) (c : Comparison) :
    Leads R c.lower :=
  Leads.bind hR.newLabel fun _ => leads_emit _

namespace Expr

mutual

theorem lower_leads {R : Generator → Prop} (hR : Lasting R) : (e : Expr) → Leads R e.lower
  | number _ _ | boolean _ _ => by
      rw [lower]
      exact leads_instrs _
  | var x p => by
      rw [lower]
      exact (leads_slotOf x p).bind fun _ => leads_instrs _
  | negate e _ => by
      rw [lower]
      exact (lower_leads hR e).bind fun _ => leads_instrs _
  | add l r _ => by
      rw [lower]
      exact (lower_leads hR l).bind fun _ => (leads_instrs _).bind fun _ =>
        (lower_leads hR r).bind fun _ => leads_instrs _
  | compare c l r _ => by
      rw [lower]
      exact (lower_leads hR l).bind fun _ => (leads_instrs _).bind fun _ =>
        (lower_leads hR r).bind fun _ => (leads_instrs _).bind fun _ => c.lower_leads hR
  | call f args _ => by
      rw [lower]
      exact (lowerArguments_leads hR args).bind fun _ => leads_instrs _

theorem lowerArguments_leads {R : Generator → Prop} (hR : Lasting R) : (args : List Expr) →
    Leads R (lowerArguments args)
  | [] => by
      rw [lowerArguments]
      exact leads_pure _
  | a :: args => by
      rw [lowerArguments]
      exact (lower_leads hR a).bind fun _ => (leads_instrs _).bind fun _ =>
        lowerArguments_leads hR args

end

end Expr

namespace Stmt

mutual

theorem lower_leads {R : Generator → Prop} (hR : Lasting R) : (s : Stmt) → Leads R s.lower
  | block body _ => by
      rw [lower]
      exact (leads_onFrame hR.openBlock).bind fun _ => (lowerAll_leads hR body).bind fun _ =>
        (leads_onFrame hR.closeBlock).bind fun _ => leads_instrs _
  | ifThen condition consequence _ => by
      rw [lower]
      exact Leads.bind hR.newLabel fun _ => (condition.lower_leads hR).bind fun _ =>
        (leads_instrs _).bind fun _ => (lower_leads hR consequence).bind fun _ => leads_emit _
  | print value _ => by
      rw [lower]
      exact (value.lower_leads hR).bind fun _ => leads_instrs _
  | declare x _ value _ => by
      rw [lower]
      exact (value.lower_leads hR).bind fun _ => (leads_instrs _).bind fun _ =>
        (leads_onFrame (hR.pushLocal x)).bind fun _ => leads_pure _
  | assign x value p => by
      rw [lower]
      exact (value.lower_leads hR).bind fun _ => (leads_slotOf x p).bind fun _ => leads_instrs _
  | ret value _ => by
      rw [lower]
      exact (value.lower_leads hR).bind fun _ => leads_instrs _
  | evaluate value => by
      rw [lower]
      exact value.lower_leads hR

theorem lowerAll_leads {R : Generator → Prop} (hR : Lasting R) : (body : List Stmt) →
    Leads R (lowerAll body)
  | [] => by
      rw [lowerAll]
      exact leads_pure _
  | s :: body => by
      rw [lowerAll]
      exact (lower_leads hR s).bind fun _ => lowerAll_leads hR body

end

end Stmt

def Generator.OnTheWay (g : Generator) : Prop := ∃ n, g.Reached n

theorem Gen.onTheWay_lasting : Lasting Generator.OnTheWay :=
  ⟨fun _ ⟨n, h⟩ => ⟨n, h.newLabel⟩, fun _ ⟨n, h⟩ => ⟨n, h.openBlock⟩,
    fun _ ⟨n, h⟩ => ⟨n, h.closeBlock⟩, fun x _ ⟨n, h⟩ => ⟨n, h.pushLocal x⟩⟩

theorem Function.lower_leads (f : Function) : Leads Generator.OnTheWay f.lower := by
  refine Leads.bind (fun g ⟨n, hg⟩ => ?_) fun _ => (leads_emit _).bind fun _ =>
    (f.body.toStmt.lower_leads onTheWay_lasting).bind fun _ => leads_instrs _
  exact ⟨_, hg.enter f.name (f.parameters.map Parameter.name) f.position⟩

theorem Function.lowerAll_leads : (fs : List Function) →
    Leads Generator.OnTheWay (Function.lowerAll fs)
  | [] => leads_pure _
  | f :: fs => (leads_emit _).bind fun _ => f.lower_leads.bind fun _ => lowerAll_leads fs

theorem Program.lower_leads (p : Program) (snapshot : Option String) :
    Leads Generator.OnTheWay (p.lower snapshot) := by
  rw [lower_eq]
  refine (leads_emit _).bind fun _ => Leads.bind ?_ fun _ =>
    (Function.lowerAll_leads p.functions).bind fun _ => leads_emit _
  unfold lowerStart
  refine (leads_emit _).bind fun _ => ?_
  cases p.main? with
  | none => exact leads_instrs _
  | some main =>
      by_cases h : main.parameters.isEmpty = true
      · simp only [h, if_true]
        exact (leads_instrs _).bind fun _ => leads_instrs _
      · simp only [h]
        exact (leads_fail _).bind fun _ => leads_instrs _

/-! ### Slots on the way -/

/-- The byte at the distance is the upper half of the slot of one of so many
parameters, or of one of so many local variables. -/
def Addresses (parameters locals : Nat) (d : Int) : Prop :=
  (∃ j : Nat, j < parameters ∧ d = 5 + 2 * j) ∨
    ∃ k : Nat, 1 ≤ k ∧ k ≤ locals ∧ d = 1 - 2 * k

theorem Addresses.mono {parameters m n : Nat} {d : Int} (h : Addresses parameters m d)
    (hmn : m ≤ n) : Addresses parameters n d := by
  rcases h with hparameter | ⟨k, hpos, hk, hd⟩
  · exact .inl hparameter
  · exact .inr ⟨k, hpos, hk.trans hmn, hd⟩

namespace Frame

/-- Every slot that can be seen is that of a parameter or of a local variable, and
there are as many more local variables as slots in front of it. -/
def Placed (parameters : Nat) (f : Frame) : Prop :=
  ∀ (i : Nat) (s : Slot), f.slots[i]? = some s → Addresses parameters (f.locals - i) s.displacement

theorem Placed.lookup {n : Nat} {f : Frame} (h : f.Placed n) {x : String} {d : Int}
    (hd : f.lookup x = some d) : Addresses n f.locals d := by
  obtain ⟨s, hs, rfl⟩ := Option.map_eq_some_iff.mp hd
  obtain ⟨i, hi⟩ := List.getElem?_of_mem (List.mem_of_find?_eq_some hs)
  exact (h i s hi).mono (Nat.sub_le _ _)

theorem placed_enter (function : String) (parameters : List String) (position : Position) :
    (enter function parameters position).1.Placed parameters.length := by
  intro i s hs
  simp only [enter] at hs
  split at hs
  · have hlength : (parameterSlots parameters).length = parameters.length := by
      rw [← List.length_map Slot.name, names_parameterSlots]
    have hi : i < (parameterSlots parameters).reverse.length := (List.getElem?_eq_some_iff.mp hs).1
    rw [List.length_reverse, hlength] at hi
    exact .inl ⟨i, hi, displacement_parameterSlots parameters hs⟩
  · simp at hs

theorem Placed.declare {n : Nat} {f : Frame} (h : f.Placed n) (x : String) :
    (f.declare x).Placed n := by
  intro i s hs
  cases i with
  | zero =>
      obtain rfl : localSlot x (f.locals + 1) = s := Option.some.inj hs
      exact .inr ⟨f.locals + 1, Nat.succ_pos _, Nat.le_refl _, rfl⟩
  | succ i =>
      show Addresses n (f.locals + 1 - (i + 1)) s.displacement
      rw [Nat.add_sub_add_right]
      exact h i s hs

theorem Placed.declareAll {n : Nat} {f : Frame} (h : f.Placed n) (xs : List String) :
    (f.declareAll xs).Placed n := by
  induction xs with
  | nil => exact h
  | cons x xs ih => exact ih.declare x

theorem Placed.pushLocal {n : Nat} {f : Frame} (h : f.Placed n) (x : String) :
    (f.pushLocal x).1.Placed n := by
  rw [pushLocal_eq]
  split
  · exact h.declare x
  · exact fun i s hs => (h i s hs).mono (Nat.sub_le_sub_right (Nat.le_succ _) i)

/-- The slots of a closed block were in front of the others, and its variables
are no longer counted. -/
theorem Placed.closeBlock {n : Nat} {f : Frame} (h : f.Placed n) : f.closeBlock.1.Placed n := by
  intro i s hs
  have hs' : f.slots[f.closeBlock.2 + i]? = some s := by
    rw [← List.getElem?_drop]
    exact hs
  have hlocals : f.closeBlock.1.locals = f.locals - f.closeBlock.2 := rfl
  rw [hlocals, Nat.sub_sub]
  exact h _ s hs'

end Frame

theorem Generator.Reached.placed {n : Nat} {g : Generator} (h : g.Reached n) :
    g.frame.Placed n := by
  induction h with
  | initial => exact fun i s hs => nomatch hs
  | newLabel _ ih => exact ih
  | enter function parameters position _ _ => exact Frame.placed_enter function parameters position
  | openBlock _ ih => exact ih
  | closeBlock _ ih => exact ih.closeBlock
  | pushLocal x _ ih =>
      dsimp only
      exact ih.pushLocal x

end Octet
