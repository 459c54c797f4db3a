import Mathlib.Data.List.Forall2
import Octet.Proofs.Evaluation.Results
import Octet.Proofs.Z80.Execution

/-!
Variables on the stack. While a function runs, its part of the stack has its
local variables on top, then the frame pointer of the caller, the address that
it returns to, and its parameters. An evaluation has the same variables in the
same order, the latest one first, so that the two are compared position by
position; the place of a variable is the number of those in front of it, and
`displacementAt` says where the frame pointer finds it.
-/

namespace Octet

open Z80

/-! ### Places -/

namespace Frame

/-- The distance of the variable with a number of others in front of it, if so
many variables are local: the frame pointer of the caller and the return address
lie between the local ones and the parameters. -/
def displacementAt (locals i : Nat) : Int :=
  if i < locals then 1 - 2 * (locals - i : Nat) else 5 + 2 * (i - locals : Nat)

/-- The frame has slots for these names, in this order, where they should be. -/
structure Laid (f : Frame) (names : List String) : Prop where
  names : f.slots.map Slot.name = names
  place : ∀ i s, f.slots[i]? = some s →
    s.displacement = displacementAt f.locals i ∧ s.inReach = true

theorem displacementAt_succ (locals i : Nat) :
    displacementAt (locals + 1) (i + 1) = displacementAt locals i := by
  unfold displacementAt
  split <;> split <;> omega

theorem Laid.declare {f : Frame} {names : List String} (h : f.Laid names)
    (hroom : f.locals < 64) (x : String) : (f.declare x).Laid (x :: names) where
  names := by rw [← h.names]; rfl
  place := by
    intro i s hs
    cases i with
    | zero =>
        obtain rfl : localSlot x (f.locals + 1) = s := by simpa [Frame.declare] using hs
        have hdisplacement : (localSlot x (f.locals + 1)).displacement =
          1 - 2 * (f.locals + 1 : Nat) := rfl
        refine ⟨?_, ?_⟩
        · show (localSlot x (f.locals + 1)).displacement = displacementAt (f.locals + 1) 0
          rw [hdisplacement, displacementAt, if_pos (Nat.succ_pos _)]
          omega
        · rw [Slot.inReach, hdisplacement, Bool.and_eq_true, decide_eq_true_eq,
            decide_eq_true_eq]
          omega
    | succ i =>
        have hplace := h.place i s (by simpa [Frame.declare] using hs)
        exact ⟨hplace.1.trans (displacementAt_succ f.locals i).symm, hplace.2⟩

theorem names_parameterSlots (names : List String) :
    (parameterSlots names).map Slot.name = names := by
  induction names with
  | nil => rfl
  | cons name names ih => simp [parameterSlots, parameterSlot, ih]

theorem displacement_parameterSlots (names : List String) {i : Nat} {s : Slot}
    (hs : (parameterSlots names).reverse[i]? = some s) : s.displacement = 5 + 2 * (i : Nat) := by
  induction names generalizing i with
  | nil => simp [parameterSlots] at hs
  | cons name names ih =>
      have hlen : (parameterSlots names).reverse.length = names.length := by
        rw [List.length_reverse, ← List.length_map Slot.name, names_parameterSlots]
      rw [parameterSlots, List.reverse_cons] at hs
      by_cases hi : i < names.length
      · rw [List.getElem?_append_left (by omega)] at hs
        exact ih hs
      · rw [List.getElem?_append_right (by omega), hlen] at hs
        have hbound := (List.getElem?_eq_some_iff.mp hs).1
        have hzero : i - names.length = 0 := by simpa using hbound
        rw [hzero] at hs
        obtain rfl : parameterSlot name names.length = s := by simpa using hs
        have hdisplacement : (parameterSlot name names.length).displacement =
          5 + 2 * (names.length : Nat) := rfl
        rw [hdisplacement]
        omega

/-- At the beginning of a function its parameters are laid, the last one
first. -/
theorem laid_enter {function : String} {parameters : List String} {position : Position} {f : Frame}
    (h : enter function parameters position = (f, .ok ())) :
    f.Laid parameters.reverse ∧ f.locals = 0 := by
  simp only [enter] at h
  split at h
  · next hall =>
      obtain ⟨rfl, -⟩ := Prod.mk.inj h
      refine ⟨⟨?_, fun i s hs => ⟨?_, ?_⟩⟩, rfl⟩
      · rw [List.map_reverse, names_parameterSlots]
      · rw [displacement_parameterSlots parameters hs, displacementAt, if_neg (Nat.not_lt_zero _)]
        rfl
      · exact List.all_eq_true.mp hall s (List.mem_reverse.mp (List.mem_of_getElem? hs))
  · cases h

end Frame

/-- Of two rows with the same names, what is found under a name stands at the
same place in both, and this is the place that an assignment changes. -/
theorem find?_pair {V : Type} {x : String} : {vars : Locals V} → {slots : List Slot} →
    slots.map Slot.name = vars.map Var.name → {a : Var V} → {s : Slot} →
    vars.find? (fun a => a.name == x) = some a → slots.find? (fun s => s.name == x) = some s →
    ∃ i : Nat, vars[i]? = some a ∧ slots[i]? = some s ∧
      ∀ v, Locals.assign x v vars = vars.set i { a with value := v }
  | [], _, _, _, _, ha, _ => by simp at ha
  | b :: vars, [], hnames, _, _, _, _ => by simp at hnames
  | b :: vars, t :: slots, hnames, a, s, ha, hs => by
      obtain ⟨hname, hnames⟩ := List.cons.inj hnames
      by_cases hx : b.name = x
      · obtain rfl : b = a := by simpa [hx] using ha
        obtain rfl : t = s := by simpa [hname, hx] using hs
        exact ⟨0, rfl, rfl, fun v => by simp [Locals.assign, hx]⟩
      · have hb : (b.name == x) = false := by simpa using hx
        have ht : (t.name == x) = false := by rw [hname]; exact hb
        rw [List.find?_cons, hb] at ha
        rw [List.find?_cons, ht] at hs
        obtain ⟨i, hi, hi', hassign⟩ := find?_pair hnames ha hs
        exact ⟨i + 1, by simpa using hi, by simpa using hi', fun v => by
          simp [Locals.assign, hx, hassign]⟩

theorem Vars.flatten_assign {V : Type} (x : String) (v : V) (vars : Vars V) :
    (vars.assign x v).flatten = Locals.assign x v vars.flatten := by
  have happend : ∀ scope rest : Locals V, Locals.assign x v (scope ++ rest) =
      if scope.any (fun a => a.name == x) then Locals.assign x v scope ++ rest
      else scope ++ Locals.assign x v rest := by
    intro scope rest
    induction scope with
    | nil => simp
    | cons a scope ih =>
        rw [List.cons_append, Locals.assign, Locals.assign]
        by_cases hx : a.name == x
        · simp [hx]
        · simp only [hx, Bool.false_eq_true, if_false, ih, List.any_cons, Bool.false_or]
          split <;> rfl
  induction vars with
  | nil => rfl
  | cons scope vars ih =>
      rw [List.flatten_cons, happend, Vars.assign]
      split
      · rfl
      · rw [List.flatten_cons, ih]

theorem Vars.flatten_declare {V : Type} (a : Var V) (vars : Vars V) :
    (vars.declare a).flatten = a :: vars.flatten := by
  cases vars <;> rfl

/-! ### What code sees of the stack -/

/-- A byte in the machine is the value of an evaluation, if that is known. -/
def Represents (v : Option UInt8) (n : UInt8) : Prop := ∀ b, v = some b → n = b

section

variable {W C : Type} [CommRing W] [Cell C]

/-- The upper cells of words are the values. -/
abbrev Keeps (vs : List (Option UInt8)) (ws : List (C × C)) : Prop :=
  List.Forall₂ (fun v w => Represents v (value w.1)) vs ws

/-- The variables that code names are somewhere on the stack. -/
def Sees (m : Machine W C) (f : Frame) (vars : Vars (Option UInt8)) (ws : List (C × C)) : Prop :=
  ∀ x a d, vars.find? x = some a → f.lookup x = some d →
    addressable d = true ∧ ∃ j w, ws[j]? = some w ∧
      m.ix + (d : W) = m.sp + ((2 * j + 1 : Nat) : W) ∧ Represents a.value (value w.1)

variable {m m' : Machine W C} {f : Frame} {vars : Vars (Option UInt8)} {ws : List (C × C)}

/-- A word may be pushed on top of them. -/
theorem Sees.push (h : Sees m f vars ws) (hix : m'.ix = m.ix) (hsp : m'.sp = m.sp - 2)
    (w : C × C) : Sees m' f vars (w :: ws) := by
  intro x a d ha hd
  obtain ⟨hreach, j, v, hj, haddress, hvalue⟩ := h x a d ha hd
  refine ⟨hreach, j + 1, v, by simpa using hj, ?_, hvalue⟩
  rw [hix, haddress, hsp]
  push_cast
  ring

theorem Sees.of_eq (h : Sees m f vars ws) (hix : m'.ix = m.ix) (hsp : m'.sp = m.sp) :
    Sees m' f vars ws := by
  intro x a d ha hd
  rw [hix, hsp]
  exact h x a d ha hd

end

/-! ### Activations -/

section

variable {W C : Type} [Words W C]

def cells (w : W) : C × C := (high w, low w)

/-- The words of a function's part of the stack, with what lies below it. -/
def record (locals : List (C × C)) (saved ret : W) (parameters rest : List (C × C)) :
    List (C × C) :=
  locals ++ cells saved :: cells ret :: (parameters ++ rest)

variable {locals parameters : List (C × C)} {i : Nat}

theorem length_record (locals : List (C × C)) (saved ret : W) (parameters rest : List (C × C)) :
    (record locals saved ret parameters rest).length =
      locals.length + (parameters.length + rest.length + 2) := by
  simp only [record, List.length_append, List.length_cons]

/-- Where the variable with a place is on the stack. -/
theorem getElem?_record {w : C × C} (hw : (locals ++ parameters)[i]? = some w)
    (saved ret : W) (rest : List (C × C)) :
    (record locals saved ret parameters rest)[if i < locals.length then i else i + 2]? =
      some w := by
  unfold record
  split
  · next hlt =>
      rw [List.getElem?_append_left hlt] at hw ⊢
      exact hw
  · next hge =>
      have hge := Nat.le_of_not_lt hge
      rw [List.getElem?_append_right hge] at hw
      rw [List.getElem?_append_right (by omega),
        show i + 2 - locals.length = (i - locals.length) + 2 by omega]
      have hlt := (List.getElem?_eq_some_iff.mp hw).1
      simpa [List.getElem?_append_left hlt] using hw

/-- Changing the word of a variable changes the local ones or the parameters. -/
theorem set_record (c : C × C) (hi : i < (locals ++ parameters).length) (saved ret : W)
    (rest : List (C × C)) :
    ∃ locals' parameters', locals'.length = locals.length ∧
      parameters'.length = parameters.length ∧
      (locals ++ parameters).set i c = locals' ++ parameters' ∧
      (record locals saved ret parameters rest).set (if i < locals.length then i else i + 2) c =
        record locals' saved ret parameters' rest := by
  unfold record
  split
  · next hlt =>
      refine ⟨locals.set i c, parameters, by simp, rfl, ?_, ?_⟩ <;>
        rw [List.set_append_left _ _ hlt]
  · next hge =>
      have hge := Nat.le_of_not_lt hge
      have hlt : i - locals.length < parameters.length := by
        rw [List.length_append] at hi
        omega
      refine ⟨locals, parameters.set (i - locals.length) c, rfl, by simp, ?_, ?_⟩
      · rw [List.set_append_right _ _ hge]
      · rw [List.set_append_right _ _ (by omega),
          show i + 2 - locals.length = (i - locals.length) + 2 by omega]
        simp [List.set_append_left _ _ hlt]

end

variable {W C : Type} [CommRing W] [Cell C] [Words W C]

/-- A function is running, with these variables. -/
structure Activation (m : Machine W C) (f : Frame) (vars : Vars (Option UInt8))
    (locals : List (C × C)) (saved ret : W) (parameters rest : List (C × C)) : Prop where
  holds : m.Holds (record locals saved ret parameters rest)
  base : m.ix = m.sp + ((2 * locals.length : Nat) : W)
  count : locals.length = f.locals
  values : Keeps (vars.flatten.map Var.value) (locals ++ parameters)
  laid : f.Laid (vars.flatten.map Var.name)

namespace Activation

variable {m m' : Machine W C} {f : Frame} {vars : Vars (Option UInt8)} {locals : List (C × C)}
  {saved ret : W} {parameters rest : List (C × C)}

/-- The place of a variable, in the evaluation and on the stack. -/
theorem place (h : Activation m f vars locals saved ret parameters rest) {x : String}
    {a : Var (Option UInt8)} {d : Int} (ha : vars.find? x = some a) (hd : f.lookup x = some d) :
    addressable d = true ∧ ∃ i w, (locals ++ parameters)[i]? = some w ∧
      Represents a.value (value w.1) ∧
      (∀ v, (vars.assign x v).flatten = vars.flatten.set i { a with value := v }) ∧
      m.ix + (d : W) =
        m.sp + ((2 * (if i < locals.length then i else i + 2) + 1 : Nat) : W) := by
  obtain ⟨s, hs, rfl⟩ := Option.map_eq_some_iff.mp hd
  obtain ⟨i, hi, hi', hassign⟩ := find?_pair h.laid.names ha hs
  obtain ⟨hplace, hreach⟩ := h.laid.place i s hi'
  obtain ⟨w, hw, hvalue⟩ : ∃ w, (locals ++ parameters)[i]? = some w ∧
      Represents a.value (value w.1) := by
    obtain ⟨hlt, rfl⟩ := List.getElem?_eq_some_iff.mp hi
    have hlen := h.values.length_eq
    rw [List.length_map] at hlen
    refine ⟨_, List.getElem?_eq_getElem (hlen ▸ hlt), ?_⟩
    have hget := h.values.get (i := i) (by rw [List.length_map]; exact hlt) (hlen ▸ hlt)
    simpa only [List.get_eq_getElem, List.getElem_map] using hget
  refine ⟨hreach, i, w, hw, hvalue, fun v => ?_, ?_⟩
  · rw [Vars.flatten_assign, hassign]
  · rw [hplace, h.base, ← h.count, Frame.displacementAt]
    split
    · next hlt =>
        push_cast [Nat.cast_sub hlt.le]
        ring
    · next hge =>
        push_cast [Nat.cast_sub (Nat.le_of_not_lt hge)]
        ring

theorem sees (h : Activation m f vars locals saved ret parameters rest) :
    Sees m f vars (record locals saved ret parameters rest) := by
  intro x a d ha hd
  obtain ⟨hreach, i, w, hw, hvalue, -, haddress⟩ := h.place ha hd
  exact ⟨hreach, _, w, getElem?_record hw saved ret rest, haddress, hvalue⟩

theorem of_eq (h : Activation m f vars locals saved ret parameters rest)
    (hholds : m'.Holds (record locals saved ret parameters rest)) (hix : m'.ix = m.ix)
    (hsp : m'.sp = m.sp) : Activation m' f vars locals saved ret parameters rest :=
  { h with holds := hholds, base := by rw [hix, hsp, h.base] }

/-- A value that has been pushed is a new variable. -/
theorem declare (h : Activation m f vars locals saved ret parameters rest) {x : String} {t : Ty}
    {v : Option UInt8} {w : C × C} (hroom : f.locals < 64)
    (hholds : m'.Holds (w :: record locals saved ret parameters rest)) (hix : m'.ix = m.ix)
    (hsp : m'.sp = m.sp - 2) (hv : Represents v (value w.1)) :
    Activation m' (f.declare x) (vars.declare ⟨x, t, v⟩) (w :: locals) saved ret parameters
      rest where
  holds := hholds
  base := by
    rw [hix, h.base, hsp]
    push_cast [List.length_cons]
    ring
  count := by
    rw [List.length_cons, h.count]
    rfl
  values := by
    rw [Vars.flatten_declare]
    exact .cons hv h.values
  laid := by
    rw [Vars.flatten_declare]
    exact h.laid.declare hroom x

/-- An assignment writes the upper cell of the variable's word. -/
theorem assign [DecidableEq W] (h : Activation m f vars locals saved ret parameters rest)
    {x : String} {a : Var (Option UInt8)} {d : Int} (ha : vars.find? x = some a)
    (hd : f.lookup x = some d)
    (hroom : Room W (2 * (record locals saved ret parameters rest).length)) (n : UInt8)
    (hmemory : m'.memory = Function.update m.memory (m.ix + (d : W)) (byte n))
    (hix : m'.ix = m.ix) (hsp : m'.sp = m.sp) :
    ∃ locals' parameters', parameters'.length = parameters.length ∧
      Activation m' f (vars.assign x (some n)) locals' saved ret parameters' rest := by
  obtain ⟨-, i, w, hw, -, hassign, haddress⟩ := h.place ha hd
  have hi := (List.getElem?_eq_some_iff.mp hw).1
  obtain ⟨locals', parameters', hlocals, hparameters, hset, hrecord⟩ :=
    set_record (byte n, w.2) hi saved ret rest
  refine ⟨locals', parameters', hparameters, ?_⟩
  have hstored := Z80.Holds.set h.holds hroom (getElem?_record hw saved ret rest) (byte n)
  refine ⟨?_, ?_, hlocals.trans h.count, ?_, ?_⟩
  · show Z80.Holds m'.memory m'.sp _
    rw [hmemory, hsp, haddress, ← hrecord]
    exact hstored
  · rw [hix, hsp, hlocals, h.base]
  · rw [hassign, List.map_set, ← hset]
    refine List.forall₂_iff_get.mpr ⟨?_, ?_⟩
    · simpa using h.values.length_eq
    · intro k hk hk'
      by_cases hki : i = k
      · subst hki
        intro b hb
        simp at hb ⊢
        exact hb
      · have hget := h.values.get (i := k) (by simpa using hk) (by simpa using hk')
        simpa [hki] using hget
  · rw [Vars.names_flatten, Vars.shape_assign, ← Vars.names_flatten]
    exact h.laid

end Activation

end Octet
