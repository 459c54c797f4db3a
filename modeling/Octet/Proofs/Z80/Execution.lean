import Mathlib.Tactic.Ring
import Mathlib.Tactic.LinearCombination
import Octet.Proofs.Z80.Machine

/-!
Running pieces of code. A piece that stands somewhere in the lines is run one
instruction after the other, and what it needs to know of the machine is said
by two predicates: `Placed` gives the address at which code stands, and `Holds`
gives the words on the stack, as a list, from the top.

Both rest on addresses being different from each other, which is what `Room`
provides: that so many addresses in a row can be told apart.
-/

namespace Octet.Z80

/-! ### Room -/

/-- So many addresses in a row are different from each other. -/
def Room (W : Type) [CommRing W] (n : Nat) : Prop := ∀ k : Nat, 0 < k → k < n → (k : W) ≠ 0

theorem Room.mono {W : Type} [CommRing W] {m n : Nat} (h : Room W n) (hmn : m ≤ n) : Room W m :=
  fun k hpos hk => h k hpos (hk.trans_le hmn)

theorem room_int (n : Nat) : Room ℤ n := fun k hpos _ => by exact_mod_cast hpos.ne'

theorem room_bitVec {n : Nat} (h : n ≤ 65536) : Room (BitVec 16) n := by
  intro k hpos hk heq
  have hnat := congrArg BitVec.toNat heq
  simp at hnat
  omega

variable {W C : Type} [CommRing W]

/-! ### Code in its place -/

@[simp] theorem codeSize_nil : codeSize [] = 0 := rfl

@[simp] theorem codeSize_cons (l : Line) (lines : List Line) :
    codeSize (l :: lines) = l.size + codeSize lines := by
  simp [codeSize]

@[simp] theorem codeSize_append (c₁ c₂ : List Line) :
    codeSize (c₁ ++ c₂) = codeSize c₁ + codeSize c₂ := by
  simp [codeSize]

theorem codeSize_pops (n : Nat) : codeSize (List.replicate n (.instr .popBC)) = n := by
  simp [codeSize, Line.size, Instr.size]

theorem Instr.size_pos (i : Instr) : 0 < i.size := by
  cases i <;> simp [Instr.size]

/-- The code stands in the lines, at an address. -/
def Placed (lines : List Line) (w : W) (code : List Line) : Prop :=
  ∃ before after, lines = before ++ (code ++ after) ∧ w = origin + (codeSize before : W)

namespace Placed

variable {lines code c₁ c₂ : List Line} {w : W}

theorem left (h : Placed lines w (c₁ ++ c₂)) : Placed lines w c₁ := by
  obtain ⟨before, after, rfl, rfl⟩ := h
  exact ⟨before, c₂ ++ after, by simp, rfl⟩

theorem right (h : Placed lines w (c₁ ++ c₂)) : Placed lines (w + (codeSize c₁ : W)) c₂ := by
  obtain ⟨before, after, rfl, rfl⟩ := h
  refine ⟨before ++ c₁, after, by simp, ?_⟩
  push_cast [codeSize_append]
  ring

theorem tail {l : Line} (h : Placed lines w (l :: code)) :
    Placed lines (w + (l.size : W)) code := by
  have happend : Placed lines w ([l] ++ code) := h
  simpa using happend.right

theorem length_le (h : Placed lines w code) : code.length ≤ lines.length := by
  obtain ⟨before, after, rfl, -⟩ := h
  simp only [List.length_append]
  omega

end Placed

/-- An instruction is found at its address: the bytes of those in front of it
are fewer than there is room for, and so no other one has that address. -/
theorem fetchFrom_append [DecidableEq W] (before : List Line) {i : Instr} {after : List Line}
    (start : W) (hroom : Room W (codeSize (before ++ .instr i :: after))) :
    fetchFrom start (before ++ .instr i :: after) (start + (codeSize before : W)) = some i := by
  induction before generalizing start with
  | nil => simp [fetchFrom]
  | cons line before ih =>
      have hpos := i.size_pos
      have htail : Room W (codeSize (before ++ .instr i :: after)) :=
        hroom.mono (by simp)
      have hshift : start + (codeSize (line :: before) : W) =
          start + (line.size : W) + (codeSize before : W) := by
        push_cast [codeSize_cons]
        ring
      rw [List.cons_append, hshift]
      cases line with
      | instr j =>
          have hne : start ≠ start + (j.size : W) + (codeSize before : W) := by
            intro heq
            refine hroom (j.size + codeSize before) (Nat.add_pos_left j.size_pos _) ?_ ?_
            · simp [Line.size]
              omega
            · push_cast
              linear_combination -heq
          rw [fetchFrom, Line.size, if_neg hne]
          exact ih _ htail
      | blank => simpa [fetchFrom, Line.size] using ih start htail
      | label l => simpa [fetchFrom, Line.size] using ih start htail
      | directive d => simpa [fetchFrom, Line.size] using ih start htail
      | verbatim t => simpa [fetchFrom, Line.size] using ih start htail

theorem Placed.fetch [DecidableEq W] {lines code : List Line} {w : W} {i : Instr}
    (h : Placed lines w (.instr i :: code)) (hroom : Room W (codeSize lines)) :
    fetchFrom origin lines w = some i := by
  obtain ⟨before, after, rfl, rfl⟩ := h
  exact fetchFrom_append before origin hroom

def Line.label? : Line → Option String
  | label l => some l
  | _ => none

def labels (lines : List Line) : List String := lines.filterMap Line.label?

@[simp] theorem labels_append (c₁ c₂ : List Line) : labels (c₁ ++ c₂) = labels c₁ ++ labels c₂ := by
  simp [labels]

@[simp] theorem labels_nil : labels [] = [] := rfl

@[simp] theorem labels_label (l : String) (code : List Line) :
    labels (.label l :: code) = l :: labels code := rfl

theorem labelFrom_append (before : List Line) {l : String} {after : List Line} (start : W)
    (hfresh : l ∉ labels before) :
    labelFrom start (before ++ .label l :: after) l = some (start + (codeSize before : W)) := by
  induction before generalizing start with
  | nil => simp [labelFrom]
  | cons line before ih =>
      have htail : l ∉ labels before := by
        intro hmem
        refine hfresh ?_
        cases line <;> simp_all [labels, Line.label?]
      cases line with
      | instr i =>
          rw [List.cons_append, labelFrom, ih _ htail, codeSize_cons, Line.size]
          push_cast
          ring_nf
      | label x =>
          have hne : x ≠ l := by
            rintro rfl
            simp at hfresh
          simp [labelFrom, hne, ih _ htail, Line.size]
      | blank => simp [labelFrom, ih _ htail, Line.size]
      | directive d => simp [labelFrom, ih _ htail, Line.size]
      | verbatim t => simp [labelFrom, ih _ htail, Line.size]

theorem Placed.label {lines code : List Line} {w : W} {l : String}
    (h : Placed lines w (.label l :: code)) (hlabels : (labels lines).Nodup) :
    labelFrom origin lines l = some w := by
  obtain ⟨before, after, rfl, rfl⟩ := h
  refine labelFrom_append before origin fun hmem => ?_
  rw [labels_append] at hlabels
  exact List.disjoint_of_nodup_append hlabels hmem (by simp)

/-! ### The stack -/

/-- The words on the stack, from the top. -/
def Holds (memory : W → C) (sp : W) : List (C × C) → Prop
  | [] => True
  | w :: ws => memory sp = w.2 ∧ memory (sp + 1) = w.1 ∧ Holds memory (sp + 2) ws

namespace Holds

variable {memory : W → C} {sp : W} {ws : List (C × C)}

/-- A cell outside of the stack may change. -/
theorem update [DecidableEq W] {x : W} (c : C) (h : Holds memory sp ws)
    (hx : ∀ k, k < 2 * ws.length → x ≠ sp + (k : W)) :
    Holds (Function.update memory x c) sp ws := by
  induction ws generalizing sp with
  | nil => trivial
  | cons w ws ih =>
      obtain ⟨hlow, hhigh, hrest⟩ := h
      have hx₀ : sp ≠ x := fun heq => hx 0 (by simp) (by simp [heq])
      have hx₁ : sp + 1 ≠ x := fun heq =>
        hx 1 (by simp only [List.length_cons]; omega) (by simp [heq])
      refine ⟨by rw [Function.update_of_ne hx₀, hlow],
        by rw [Function.update_of_ne hx₁, hhigh], ih hrest fun k hk heq => ?_⟩
      refine hx (k + 2) (by simp only [List.length_cons]; omega) ?_
      rw [heq]
      push_cast
      ring

theorem push [DecidableEq W] (h : Holds memory sp ws) (hroom : Room W (2 * (ws.length + 1)))
    (w : C × C) :
    Holds (Function.update (Function.update memory (sp - 1) w.1) (sp - 2) w.2) (sp - 2)
      (w :: ws) := by
  have hsp : sp - 2 + 2 = sp := by ring
  have hone : sp - 2 + 1 = sp - 1 := by ring
  have hne : sp - 1 ≠ sp - 2 := by
    intro heq
    refine hroom 1 (by omega) (by omega) ?_
    push_cast
    linear_combination heq
  refine ⟨Function.update_self .., ?_, ?_⟩
  · rw [hone, Function.update_of_ne hne, Function.update_self]
  · rw [hsp]
    -- Neither of the two new cells is one of those that the stack had.
    refine (h.update w.1 fun k hk heq => ?_).update w.2 fun k hk heq => ?_
    · refine hroom (k + 1) (by omega) (by omega) ?_
      push_cast
      linear_combination -heq
    · refine hroom (k + 2) (by omega) (by omega) ?_
      push_cast
      linear_combination -heq

theorem drop {ws₁ ws₂ : List (C × C)} (h : Holds memory sp (ws₁ ++ ws₂)) :
    Holds memory (sp + ((2 * ws₁.length : Nat) : W)) ws₂ := by
  induction ws₁ generalizing sp with
  | nil => simpa using h
  | cons w ws₁ ih =>
      have hrest := ih h.2.2
      have hsp : sp + ((2 * (w :: ws₁).length : Nat) : W) =
          sp + 2 + ((2 * ws₁.length : Nat) : W) := by
        push_cast [List.length_cons]
        ring
      rwa [hsp]

theorem get (h : Holds memory sp ws) {j : Nat} {w : C × C} (hj : ws[j]? = some w) :
    memory (sp + ((2 * j + 1 : Nat) : W)) = w.1 := by
  induction ws generalizing sp j with
  | nil => simp at hj
  | cons v ws ih =>
      cases j with
      | zero =>
          obtain rfl : v = w := by simpa using hj
          simpa using h.2.1
      | succ j =>
          have hrest := ih h.2.2 (by simpa using hj)
          have hsp : sp + ((2 * (j + 1) + 1 : Nat) : W) = sp + 2 + ((2 * j + 1 : Nat) : W) := by
            push_cast
            ring
          rwa [hsp]

/-- The upper cell of a word on the stack may be written. -/
theorem set [DecidableEq W] (h : Holds memory sp ws) (hroom : Room W (2 * ws.length)) {j : Nat}
    {w : C × C} (hj : ws[j]? = some w) (c : C) :
    Holds (Function.update memory (sp + ((2 * j + 1 : Nat) : W)) c) sp (ws.set j (c, w.2)) := by
  induction ws generalizing sp j with
  | nil => simp at hj
  | cons v ws ih =>
      cases j with
      | zero =>
          obtain rfl : v = w := by simpa using hj
          have hone : sp + ((2 * 0 + 1 : Nat) : W) = sp + 1 := by simp
          rw [hone]
          have hne : sp ≠ sp + 1 := by
            intro heq
            refine hroom 1 (by omega) (by simp only [List.length_cons]; omega) ?_
            push_cast
            linear_combination -heq
          refine ⟨by rw [Function.update_of_ne hne, h.1], Function.update_self .., ?_⟩
          refine h.2.2.update c fun k hk heq => ?_
          refine hroom (k + 1) (by omega) (by simp only [List.length_cons]; omega) ?_
          push_cast
          linear_combination -heq
      | succ j =>
          have hjlen : j < ws.length := by
            have hlen := (List.getElem?_eq_some_iff.mp hj).1
            simpa using hlen
          have hsp : sp + ((2 * (j + 1) + 1 : Nat) : W) = sp + 2 + ((2 * j + 1 : Nat) : W) := by
            push_cast
            ring
          have hne₀ : sp ≠ sp + 2 + ((2 * j + 1 : Nat) : W) := by
            intro heq
            refine hroom (2 * j + 3) (by omega) (by simp only [List.length_cons]; omega) ?_
            push_cast at heq ⊢
            linear_combination -heq
          have hne₁ : sp + 1 ≠ sp + 2 + ((2 * j + 1 : Nat) : W) := by
            intro heq
            refine hroom (2 * j + 2) (by omega) (by simp only [List.length_cons]; omega) ?_
            push_cast at heq ⊢
            linear_combination -heq
          rw [hsp]
          refine ⟨by rw [Function.update_of_ne hne₀, h.1],
            by rw [Function.update_of_ne hne₁, h.2.1], ?_⟩
          exact ih h.2.2 (hroom.mono (by simp only [List.length_cons]; omega)) (by simpa using hj)

end Holds

/-! ### Runs -/

namespace Machine

variable [DecidableEq W] [Cell C] [Words W C] {rom : Machine W C → Registers}
  {lines code : List Line} {m m' : Machine W C}

def Holds (m : Machine W C) (ws : List (C × C)) : Prop := Z80.Holds m.memory m.sp ws

/-- An instruction in its place is carried out. -/
theorem Runs.instr {i : Instr} (h : Placed lines m.pc (.instr i :: code))
    (hroom : Room W (codeSize lines))
    (hexec : m.exec rom (labelFrom origin lines) i = some m') : m.Runs rom lines m' := by
  refine Relation.ReflTransGen.single ?_
  rw [step, h.fetch hroom]
  exact hexec

end Machine

end Octet.Z80
