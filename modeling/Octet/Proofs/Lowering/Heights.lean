import Octet.Proofs.Lowering.Linking
import Octet.Proofs.Lowering.States

/-!
How high the stack is along generated code. Lowering counts the local variables
and nothing else, while operands and arguments are pushed without being counted.
A piece of code comes with the height in front of it, with the number of variables
in front of each of its lines, and with one height for each label that has a
number. The jump to a label and the label itself have that height both. Pieces are
put one behind the other, since they have no numbers in common.
-/

namespace Octet

namespace Z80

/-! ### Heights -/

/-- By how many slots the line raises the stack. The end of a function is not
counted: it gives up the whole frame, and the code behind it is not reached from
there. -/
def Line.rise : Line → Int
  | instr .pushAF | instr .pushIX => 1
  | instr .popBC => -1
  | _ => 0

def rise : List Line → Int
  | [] => 0
  | line :: code => line.rise + rise code

/-- The distance from `ix` of the byte that the line reads or writes. -/
def Line.distance? : Line → Option Int
  | instr (.fetchA d) | instr (.storeA d) => some d
  | _ => none

@[simp] theorem rise_nil : rise [] = 0 := rfl

@[simp] theorem rise_cons (line : Line) (code : List Line) :
    rise (line :: code) = line.rise + rise code := rfl

@[simp] theorem rise_append (c₁ c₂ : List Line) : rise (c₁ ++ c₂) = rise c₁ + rise c₂ := by
  induction c₁ with
  | nil => simp
  | cons line c₁ ih => rw [List.cons_append, rise_cons, rise_cons, ih, Int.add_assoc]

@[simp] theorem rise_pops (n : Nat) : rise (List.replicate n (.instr .popBC)) = -n := by
  induction n with
  | zero => rfl
  | succ n ih =>
      rw [List.replicate_succ, rise_cons, ih]
      show -1 + -(n : Int) = -((n + 1 : Nat) : Int)
      omega

end Z80

open Z80 Gen

namespace Expr

mutual

theorem rise_lower : (e : Expr) → {g g' : Generator} → {code : List Line} → {u : Unit} →
    e.lower.Emits g code u g' → rise code = 0
  | number n p, g, g', code, u, h => by
      obtain ⟨rfl, -⟩ := instrs_emits.mp h
      rfl
  | boolean b p, g, g', code, u, h => by
      obtain ⟨rfl, -⟩ := instrs_emits.mp h
      rfl
  | var x p, g, g', code, u, h => by
      obtain ⟨d, -, rfl, -⟩ := emits_var h
      rfl
  | negate e p, g, g', code, u, h => by
      obtain ⟨c, he, rfl⟩ := emits_negate h
      rw [rise_append, rise_lower e he]
      rfl
  | add l r p, g, g', code, u, h => by
      obtain ⟨c₁, g₁, c₂, hl, hr, rfl⟩ := emits_add h
      rw [rise_append, rise_cons, rise_append, rise_lower l hl, rise_lower r hr]
      rfl
  | compare c l r p, g, g', code, u, h => by
      obtain ⟨c₁, g₁, c₂, g₂, c₃, hl, hr, hc, rfl⟩ := emits_compare h
      obtain ⟨rfl, -⟩ := Comparison.emits hc
      rw [rise_append, rise_cons, rise_append, rise_lower l hl, rise_lower r hr]
      rfl
  | call f args p, g, g', code, u, h => by
      obtain ⟨c, hargs, rfl⟩ := emits_call h
      rw [rise_append, rise_cons, rise_lowerArguments args hargs, rise_pops]
      show (args.length : Int) + (0 + -args.length) = 0
      omega

theorem rise_lowerArguments : (args : List Expr) → {g g' : Generator} → {code : List Line} →
    {u : Unit} → (lowerArguments args).Emits g code u g' → rise code = args.length
  | [], g, g', code, u, h => by
      obtain ⟨rfl, -⟩ := pure_emits.mp h
      rfl
  | a :: args, g, g', code, u, h => by
      obtain ⟨c₁, g₁, c₂, ha, hargs, rfl⟩ := emits_argument h
      rw [rise_append, rise_cons, rise_lower a ha, rise_lowerArguments args hargs]
      show 0 + (1 + (args.length : Int)) = ((args.length + 1 : Nat) : Int)
      omega

end

end Expr

namespace Stmt

mutual

/-- A statement leaves on the stack what it declares. -/
theorem rise_lower : (s : Stmt) → {g g' : Generator} → {code : List Line} → {u : Unit} →
    s.lower.Emits g code u g' → rise code = s.declared.length
  | block body p, g, g', code, u, h => by
      obtain ⟨c, g₁, hbody, -, rfl⟩ := emits_block h
      rw [rise_append, rise_lowerAll body hbody, rise_pops]
      exact Int.add_right_neg _
  | ifThen condition consequence p, g, g', code, u, h => by
      obtain ⟨c₁, g₁, c₂, hcondition, hconsequence, rfl⟩ := emits_ifThen h
      rw [rise_append, rise_cons, rise_cons, rise_append, condition.rise_lower hcondition,
        rise_lower consequence hconsequence]
      show 0 + (0 + (0 + ((consequence.declared.length : Int) + 0))) = consequence.declared.length
      omega
  | print value p, g, g', code, u, h => by
      obtain ⟨c, hvalue, rfl⟩ := emits_print h
      rw [rise_append, value.rise_lower hvalue]
      rfl
  | declare x t value p, g, g', code, u, h => by
      obtain ⟨c, g₁, hvalue, -, -, rfl⟩ := emits_declare h
      rw [rise_append, value.rise_lower hvalue]
      rfl
  | assign x value p, g, g', code, u, h => by
      obtain ⟨c, d, hvalue, -, rfl⟩ := emits_assign h
      rw [rise_append, value.rise_lower hvalue]
      rfl
  | ret value p, g, g', code, u, h => by
      obtain ⟨c, hvalue, rfl⟩ := emits_ret h
      rw [rise_append, value.rise_lower hvalue]
      rfl
  | evaluate value, g, g', code, u, h => value.rise_lower h

theorem rise_lowerAll : (body : List Stmt) → {g g' : Generator} → {code : List Line} →
    {u : Unit} → (lowerAll body).Emits g code u g' → rise code = (declaredAll body).length
  | [], g, g', code, u, h => by
      obtain ⟨rfl, -⟩ := pure_emits.mp h
      rfl
  | s :: body, g, g', code, u, h => by
      obtain ⟨c₁, g₁, c₂, hs, hbody, rfl⟩ := emits_cons h
      rw [rise_append, rise_lower s hs, rise_lowerAll body hbody, declaredAll, List.length_append]
      omega

end

end Stmt

/-! ### Variables along the code -/

namespace Expr

mutual

def lineCount : Expr → Nat
  | number _ _ | boolean _ _ | var _ _ => 1
  | negate e _ => e.lineCount + 1
  | add l r _ => l.lineCount + (r.lineCount + 3)
  | compare _ l r _ => l.lineCount + (r.lineCount + 7)
  | call _ args _ => lineCountAll args + (args.length + 1)

def lineCountAll : List Expr → Nat
  | [] => 0
  | a :: args => a.lineCount + (lineCountAll args + 1)

end

mutual

theorem length_lower : (e : Expr) → {g g' : Generator} → {code : List Line} → {u : Unit} →
    e.lower.Emits g code u g' → code.length = e.lineCount
  | number n p, g, g', code, u, h => by
      obtain ⟨rfl, -⟩ := instrs_emits.mp h
      rfl
  | boolean b p, g, g', code, u, h => by
      obtain ⟨rfl, -⟩ := instrs_emits.mp h
      rfl
  | var x p, g, g', code, u, h => by
      obtain ⟨d, -, rfl, -⟩ := emits_var h
      rfl
  | negate e p, g, g', code, u, h => by
      obtain ⟨c, he, rfl⟩ := emits_negate h
      simp [lineCount, length_lower e he]
  | add l r p, g, g', code, u, h => by
      obtain ⟨c₁, g₁, c₂, hl, hr, rfl⟩ := emits_add h
      simp [lineCount, length_lower l hl, length_lower r hr]
  | compare c l r p, g, g', code, u, h => by
      obtain ⟨c₁, g₁, c₂, g₂, c₃, hl, hr, hc, rfl⟩ := emits_compare h
      obtain ⟨rfl, -⟩ := Comparison.emits hc
      simp [lineCount, length_lower l hl, length_lower r hr]
  | call f args p, g, g', code, u, h => by
      obtain ⟨c, hargs, rfl⟩ := emits_call h
      simp [lineCount, length_lowerArguments args hargs]

theorem length_lowerArguments : (args : List Expr) → {g g' : Generator} → {code : List Line} →
    {u : Unit} → (lowerArguments args).Emits g code u g' → code.length = lineCountAll args
  | [], g, g', code, u, h => by
      obtain ⟨rfl, -⟩ := pure_emits.mp h
      rfl
  | a :: args, g, g', code, u, h => by
      obtain ⟨c₁, g₁, c₂, ha, hargs, rfl⟩ := emits_argument h
      simp [lineCountAll, length_lower a ha, length_lowerArguments args hargs]

end

end Expr

namespace Stmt

mutual

/-- For each line that a statement takes, the number of variables on the stack in
front of it that are there to stay until then, if there are `n` in front of the
statement. -/
def variablesAt (n : Nat) : Stmt → List Nat
  | block body _ => variablesAtAll n body ++ List.replicate (declaredAll body).length n
  | ifThen condition consequence _ =>
      List.replicate condition.lineCount n ++ n :: n :: (consequence.variablesAt n ++ [n])
  | print value _ | declare _ _ value _ | assign _ value _ =>
      List.replicate value.lineCount n ++ [n]
  | ret value _ => List.replicate value.lineCount n ++ [n, n, n]
  | evaluate value => List.replicate value.lineCount n

def variablesAtAll (n : Nat) : List Stmt → List Nat
  | [] => []
  | s :: body => s.variablesAt n ++ variablesAtAll (n + s.declared.length) body

end

mutual

/-- The variables in front of a statement stay. -/
theorem le_of_mem_variablesAt {n m : Nat} : (s : Stmt) → m ∈ s.variablesAt n → n ≤ m
  | block body p, h => by
      rw [variablesAt, List.mem_append] at h
      rcases h with h | h
      · exact le_of_mem_variablesAtAll body h
      · exact (List.eq_of_mem_replicate h).ge
  | ifThen condition consequence p, h => by
      simp only [variablesAt, List.mem_append, List.mem_cons, List.not_mem_nil, or_false] at h
      rcases h with h | rfl | rfl | h | rfl
      · exact (List.eq_of_mem_replicate h).ge
      · exact Nat.le_refl _
      · exact Nat.le_refl _
      · exact le_of_mem_variablesAt consequence h
      · exact Nat.le_refl _
  | print value p, h | declare _ _ value p, h | assign _ value p, h | ret value p, h
  | evaluate value, h => by
      simp only [variablesAt, List.mem_append, List.mem_cons, List.not_mem_nil, or_false,
        List.mem_replicate] at h
      omega

theorem le_of_mem_variablesAtAll {n m : Nat} : (body : List Stmt) →
    m ∈ variablesAtAll n body → n ≤ m
  | [], h => by simp [variablesAtAll] at h
  | s :: body, h => by
      rw [variablesAtAll, List.mem_append] at h
      rcases h with h | h
      · exact le_of_mem_variablesAt s h
      · exact Nat.le_of_add_right_le (le_of_mem_variablesAtAll body h)

end

end Stmt

/-! ### Lines on the stack -/

/-- How a line stands, with the height of the stack and the number of variables in
front of it: these have been pushed, the line reaches for nothing else, and the
labels with a number have the height of the stack there. -/
structure Sits (parameters low high : Nat) (heights : Nat → Int) (h : Int) (m : Nat)
    (line : Line) : Prop where
  pushed : (m : Int) ≤ h
  reach : ∀ d, line.distance? = some d → Addresses parameters m d
  level : ∀ l, line.jump? = some l ∨ line.label? = some l →
    ∃ n, low ≤ n ∧ n < high ∧ IsNumbered l n ∧ heights n = h

theorem Sits.mono {parameters low high low' high' : Nat} {heights heights' : Nat → Int} {h : Int}
    {m : Nat} {line : Line} (hline : Sits parameters low high heights h m line) (hlow : low' ≤ low)
    (hhigh : high ≤ high') (heq : ∀ n, low ≤ n → n < high → heights' n = heights n) :
    Sits parameters low' high' heights' h m line where
  pushed := hline.pushed
  reach := hline.reach
  level := by
    intro l hl
    obtain ⟨n, hn, hn', hnumber, hheight⟩ := hline.level l hl
    exact ⟨n, by omega, by omega, hnumber, (heq n hn hn').trans hheight⟩

/-- A line without a label of its own, and without a jump. -/
theorem sits_of_none {parameters low high : Nat} {heights : Nat → Int} {h : Int} {m : Nat}
    {line : Line} (hm : (m : Int) ≤ h) (hjump : line.jump? = none) (hlabel : line.label? = none)
    (hreach : ∀ d, line.distance? = some d → Addresses parameters m d) :
    Sits parameters low high heights h m line where
  pushed := hm
  reach := hreach
  level := by
    intro l hl
    simp [hjump, hlabel] at hl

/-- A jump or a label where the stack has the height that belongs to the label. -/
theorem sits_of_label {parameters low high n : Nat} {heights : Nat → Int} {h : Int} {m : Nat}
    {line : Line} {l : String} (hm : (m : Int) ≤ h) (hlow : low ≤ n) (hhigh : n < high)
    (hl : IsNumbered l n) (hheight : heights n = h) (hdistance : line.distance? = none)
    (hline : ∀ k, line.jump? = some k ∨ line.label? = some k → k = l) :
    Sits parameters low high heights h m line where
  pushed := hm
  reach := by simp [hdistance]
  level := by
    intro k hk
    rw [hline k hk]
    exact ⟨n, hlow, hhigh, hl, hheight⟩

/-- Along the lines, each of them stands as it should, with its height and its
number of variables. -/
inductive Poised (P : Int → Nat → Line → Prop) : Int → List Nat → List Line → Prop where
  | nil {h : Int} : Poised P h [] []
  | cons {h : Int} {m : Nat} {ms : List Nat} {line : Line} {code : List Line} : P h m line →
      Poised P (h + line.rise) ms code → Poised P h (m :: ms) (line :: code)

namespace Poised

variable {P Q : Int → Nat → Line → Prop} {h : Int} {ms ms' : List Nat} {code c₁ c₂ : List Line}

theorem imp (hPQ : ∀ h m line, P h m line → Q h m line) (hcode : Poised P h ms code) :
    Poised Q h ms code := by
  induction hcode with
  | nil => exact .nil
  | cons hline _ ih => exact .cons (hPQ _ _ _ hline) ih

theorem append (h₁ : Poised P h ms c₁) (h₂ : Poised P (h + rise c₁) ms' c₂) :
    Poised P h (ms ++ ms') (c₁ ++ c₂) := by
  induction h₁ with
  | nil => simpa using h₂
  | cons hline _ ih =>
      refine .cons hline (ih ?_)
      rwa [Int.add_assoc]

/-- Every line has a height and a number of variables of its own. -/
theorem line (hcode : Poised P h ms code) {before behind : List Line} {line : Line}
    (hsplit : code = before ++ line :: behind) :
    ∃ m, ms[before.length]? = some m ∧ P (h + rise before) m line := by
  induction hcode generalizing before with
  | nil => simp at hsplit
  | @cons h m ms first code hfirst _ ih =>
      cases before with
      | nil =>
          obtain ⟨rfl, -⟩ := List.cons.inj hsplit
          exact ⟨m, rfl, by simpa using hfirst⟩
      | cons b before =>
          obtain ⟨rfl, hrest⟩ := List.cons.inj hsplit
          obtain ⟨m', hm', hline⟩ := ih hrest
          refine ⟨m', hm', ?_⟩
          rwa [rise_cons, ← Int.add_assoc]

end Poised

/-- The line is one line of a text. It can be read, or else it is a call that has
blanks in the name of its function. -/
def Z80.Line.Readable (line : Line) : Prop :=
  line.Legible ∨ ∃ l, line = .instr (.call l) ∧ '\n' ∉ l.toList

/-- A piece of code, with the height of the stack in front of it and with numbers of
variables. The counter ran from one number up to another, and each line stands as it
should and is a line of the text. -/
structure Piece (parameters low high : Nat) (h : Int) (ms : List Nat)
    (code : List Line) : Prop where
  counted : low ≤ high
  lines : ∀ line ∈ code, line.Readable
  poised : ∃ heights, Poised (Sits parameters low high heights) h ms code

namespace Piece

variable {parameters low mid high m : Nat} {h : Int} {ms ms' : List Nat}
  {line : Line} {code c₁ c₂ : List Line}

theorem nil : Piece parameters low low h [] [] := ⟨Nat.le_refl _, nofun, fun _ => 0, .nil⟩

theorem append (h₁ : Piece parameters low mid h ms c₁)
    (h₂ : Piece parameters mid high (h + rise c₁) ms' c₂) :
    Piece parameters low high h (ms ++ ms') (c₁ ++ c₂) where
  counted := h₁.counted.trans h₂.counted
  lines := List.forall_mem_append.mpr ⟨h₁.lines, h₂.lines⟩
  poised := by
    obtain ⟨heights₁, hpoised₁⟩ := h₁.poised
    obtain ⟨heights₂, hpoised₂⟩ := h₂.poised
    refine ⟨fun n => if n < mid then heights₁ n else heights₂ n,
      (hpoised₁.imp ?_).append (hpoised₂.imp ?_)⟩
    · intro h m line hline
      exact hline.mono (Nat.le_refl _) h₂.counted fun n _ hn => if_pos hn
    · intro h m line hline
      exact hline.mono h₁.counted (Nat.le_refl _) fun n hn _ => if_neg (Nat.not_lt.mpr hn)

theorem cons (hline : line.Readable) (hm : (m : Int) ≤ h)
    (hgoesOn : line.jump? = none ∧ line.label? = none)
    (hreach : ∀ d, line.distance? = some d → Addresses parameters m d)
    (hcode : Piece parameters low high (h + line.rise) ms code) :
    Piece parameters low high h (m :: ms) (line :: code) where
  counted := hcode.counted
  lines := List.forall_mem_cons.mpr ⟨hline, hcode.lines⟩
  poised := by
    obtain ⟨heights, hpoised⟩ := hcode.poised
    exact ⟨heights, .cons (sits_of_none hm hgoesOn.1 hgoesOn.2 hreach) hpoised⟩

/-- A piece in front of a jump, and another one between the jump and its label. -/
theorem jumpOver {i : Instr} {l : String} (hi : i = .jumpNZ l ∨ i = .jumpShortNZ l)
    (hl : IsNumbered l low) (hm : (m : Int) ≤ h) (h₁ : Piece parameters (low + 1) mid h ms c₁)
    (h₂ : Piece parameters mid high h ms' c₂) (hrise₁ : rise c₁ = 0) (hrise₂ : rise c₂ = 0) :
    Piece parameters low high h (ms ++ m :: (ms' ++ [m]))
      (c₁ ++ .instr i :: (c₂ ++ [.label l])) where
  counted := by
    have hcounted₁ := h₁.counted
    have hcounted₂ := h₂.counted
    omega
  lines := by
    have hinstr : Line.Readable (.instr i) := by
      rcases hi with rfl | rfl <;> exact .inl hl.isWord
    have hlabel : Line.Readable (.label l) := .inl hl.isWord
    refine List.forall_mem_append.mpr ⟨h₁.lines, List.forall_mem_cons.mpr ⟨hinstr, ?_⟩⟩
    exact List.forall_mem_append.mpr ⟨h₂.lines, List.forall_mem_singleton.mpr hlabel⟩
  poised := by
    have hcounted₁ := h₁.counted
    have hcounted₂ := h₂.counted
    obtain ⟨heights₁, hpoised₁⟩ := h₁.poised
    obtain ⟨heights₂, hpoised₂⟩ := h₂.poised
    -- The jump and its label have a number in front of those of the two pieces.
    let heights : Nat → Int := fun n =>
      if n = low then h else if n < mid then heights₁ n else heights₂ n
    have hfront : Poised (Sits parameters low high heights) h ms c₁ := hpoised₁.imp
      fun _ _ _ hline => hline.mono (Nat.le_succ _) hcounted₂ fun n hn hn' => by
        simp only [heights]
        rw [if_neg (by omega), if_pos hn']
    have hbetween : Poised (Sits parameters low high heights) h ms' c₂ := hpoised₂.imp
      fun _ _ _ hline => hline.mono (by omega) (Nat.le_refl _) fun n hn hn' => by
        simp only [heights]
        rw [if_neg (by omega), if_neg (by omega)]
    have hheight : heights low = h := if_pos rfl
    have hdone : Poised (Sits parameters low high heights) h [m] [.label l] :=
      .cons (sits_of_label hm (Nat.le_refl _) (by omega) hl hheight rfl
        (by simp [Line.jump?, Line.label?])) .nil
    have hjump : Sits parameters low high heights h m (.instr i) := by
      rcases hi with rfl | rfl <;>
        exact sits_of_label hm (Nat.le_refl _) (by omega) hl hheight rfl
          (by simp [Line.jump?, Line.label?])
    have hrise : Line.rise (.instr i) = 0 := by
      rcases hi with rfl | rfl <;> rfl
    refine ⟨heights, hfront.append (.cons ?_ (Poised.append ?_ ?_))⟩
    · rwa [hrise₁, Int.add_zero]
    · rwa [hrise₁, hrise, Int.add_zero, Int.add_zero]
    · rwa [hrise₁, hrise, hrise₂, Int.add_zero, Int.add_zero, Int.add_zero]

/-- Variables can be taken off the stack down to those that stay. -/
theorem pops : (n : Nat) → {h : Int} → (m : Int) + n ≤ h →
    Piece parameters low low h (List.replicate n m) (List.replicate n (.instr .popBC))
  | 0, h, _ => nil
  | n + 1, h, hm => by
      have hrest : (m : Int) + n ≤ h + Line.rise (.instr .popBC) := by
        show (m : Int) + n ≤ h + -1
        push_cast at hm
        omega
      exact cons (.inl trivial) (by omega) ⟨rfl, rfl⟩ nofun (pops n hrest)

end Piece

/-- A piece of code during which the variables stay the same. -/
def Over (parameters low high : Nat) (h : Int) (m : Nat) (code : List Line) :
    Prop :=
  Piece parameters low high h (List.replicate code.length m) code

theorem Over.append {parameters low mid high m : Nat} {h : Int}
    {c₁ c₂ : List Line} (h₁ : Over parameters low mid h m c₁)
    (h₂ : Over parameters mid high (h + rise c₁) m c₂) :
    Over parameters low high h m (c₁ ++ c₂) := by
  rw [Over, List.length_append, ← List.replicate_append_replicate]
  exact Piece.append h₁ h₂

/-! ### Expressions -/

theorem readable_call {x : String} (h : '\n' ∉ x.toList) :
    Line.Readable (.instr (.call (functionLabel x))) := by
  refine .inr ⟨_, rfl, ?_⟩
  simpa [functionLabel, String.toList_append] using h

theorem Comparison.lower_over {c : Comparison} {g g' : Generator} {code : List Line} {u : Unit}
    (h : c.lower.Emits g code u g') {parameters m : Nat} {height : Int} (hm : (m : Int) ≤ height) :
    Over parameters g.labels g'.labels height m code := by
  obtain ⟨rfl, rfl⟩ := Comparison.emits h
  have hnumber : IsNumbered (numbered "cmp_end" g.labels) g.labels := .inr rfl
  have hfront : Piece parameters (g.labels + 1) (g.labels + 1) height [m, m]
      [.instr .compareB, .instr (.loadA (truth !c.whenSame))] :=
    .cons (.inl trivial) hm ⟨rfl, rfl⟩ nofun
      (.cons (.inl trivial) (by simpa [Line.rise] using hm) ⟨rfl, rfl⟩ nofun .nil)
  have hbetween : Piece parameters (g.labels + 1) (g.labels + 1) height [m]
      [.instr (.loadA (truth c.whenSame))] :=
    .cons (.inl trivial) hm ⟨rfl, rfl⟩ nofun .nil
  exact .jumpOver (.inr rfl) hnumber hm hfront hbetween rfl rfl

/-- Two operands and what is done with them. The first one waits on the stack while
the second one is computed. -/
theorem Over.operands {parameters low mid₁ mid₂ high m : Nat} {height : Int}
    {c₁ c₂ c₃ : List Line} (hm : (m : Int) ≤ height)
    (h₁ : Over parameters low mid₁ height m c₁)
    (h₂ : Over parameters mid₁ mid₂ (height + 1) m c₂)
    (h₃ : Over parameters mid₂ high height m c₃) (hrise₁ : rise c₁ = 0)
    (hrise₂ : rise c₂ = 0) :
    Over parameters low high height m
      (c₁ ++ .instr .pushAF :: (c₂ ++ .instr .popBC :: c₃)) := by
  have hpop : Over parameters mid₂ high (height + 1) m (.instr .popBC :: c₃) := by
    refine .cons (.inl trivial) (by omega) ⟨rfl, rfl⟩ nofun ?_
    show Over _ _ _ (height + 1 + -1) _ _
    rwa [Int.add_neg_cancel_right]
  have hsecond : Over parameters mid₁ high (height + 1) m
      (c₂ ++ .instr .popBC :: c₃) := by
    refine h₂.append ?_
    rwa [hrise₂, Int.add_zero]
  refine h₁.append ?_
  rw [hrise₁, Int.add_zero]
  exact .cons (.inl trivial) hm ⟨rfl, rfl⟩ nofun hsecond

namespace Expr

mutual

/-- Whatever waits on the stack, the code of an expression takes off only what it
has pushed, and reads only variables. -/
theorem lower_over {parameters : Nat} : (e : Expr) → {g g' : Generator} → {code : List Line} →
    {u : Unit} → e.lower.Emits g code u g' → g.frame.Placed parameters →
    (∀ x ∈ e.callees, '\n' ∉ x.toList) → (height : Int) → (g.frame.locals : Int) ≤ height →
    Over parameters g.labels g'.labels height g.frame.locals code
  | number n p, g, g', code, u, h, hplaced, hnames, height, hm => by
      obtain ⟨rfl, rfl⟩ := instrs_emits.mp h
      exact .cons (.inl trivial) hm ⟨rfl, rfl⟩ nofun .nil
  | boolean b p, g, g', code, u, h, hplaced, hnames, height, hm => by
      obtain ⟨rfl, rfl⟩ := instrs_emits.mp h
      exact .cons (.inl trivial) hm ⟨rfl, rfl⟩ nofun .nil
  | var x p, g, g', code, u, h, hplaced, hnames, height, hm => by
      obtain ⟨d, hd, rfl, rfl⟩ := emits_var h
      refine .cons (.inl trivial) hm ⟨rfl, rfl⟩ ?_ .nil
      rintro _ ⟨⟩
      exact hplaced.lookup hd
  | negate e p, g, g', code, u, h, hplaced, hnames, height, hm => by
      obtain ⟨c, he, rfl⟩ := emits_negate h
      refine (lower_over e he hplaced hnames height hm).append ?_
      rw [rise_lower e he, Int.add_zero]
      exact .cons (.inl trivial) hm ⟨rfl, rfl⟩ nofun .nil
  | add l r p, g, g', code, u, h, hplaced, hnames, height, hm => by
      obtain ⟨c₁, g₁, c₂, hl, hr, rfl⟩ := emits_add h
      obtain ⟨hnames₁, hnames₂⟩ := List.forall_mem_append.mp hnames
      have hframe := lower_frame l hl
      have hsecond := lower_over r hr (hframe ▸ hplaced) hnames₂ (height + 1)
        (by rw [hframe]; omega)
      rw [hframe] at hsecond
      exact .operands hm (lower_over l hl hplaced hnames₁ height hm) hsecond
        (.cons (.inl trivial) hm ⟨rfl, rfl⟩ nofun .nil) (rise_lower l hl)
        (rise_lower r hr)
  | compare c l r p, g, g', code, u, h, hplaced, hnames, height, hm => by
      obtain ⟨c₁, g₁, c₂, g₂, c₃, hl, hr, hc, rfl⟩ := emits_compare h
      obtain ⟨hnames₁, hnames₂⟩ := List.forall_mem_append.mp hnames
      have hframe := lower_frame l hl
      have hsecond := lower_over r hr (hframe ▸ hplaced) hnames₂ (height + 1)
        (by rw [hframe]; omega)
      rw [hframe] at hsecond
      exact .operands hm (lower_over l hl hplaced hnames₁ height hm) hsecond
        (Comparison.lower_over hc hm) (rise_lower l hl) (rise_lower r hr)
  | call f args p, g, g', code, u, h, hplaced, hnames, height, hm => by
      obtain ⟨c, hargs, rfl⟩ := emits_call h
      obtain ⟨hname, hnames⟩ := List.forall_mem_cons.mp hnames
      refine (lowerArguments_over args hargs hplaced hnames height hm).append ?_
      rw [rise_lowerArguments args hargs]
      refine .cons (readable_call hname) (by omega) ⟨rfl, rfl⟩ nofun ?_
      show Piece _ _ _ (height + args.length + 0) _ _
      rw [List.length_replicate]
      exact .pops args.length (by omega)

theorem lowerArguments_over {parameters : Nat} : (args : List Expr) → {g g' : Generator} →
    {code : List Line} → {u : Unit} → (lowerArguments args).Emits g code u g' →
    g.frame.Placed parameters → (∀ x ∈ calleesAll args, '\n' ∉ x.toList) → (height : Int) →
    (g.frame.locals : Int) ≤ height →
    Over parameters g.labels g'.labels height g.frame.locals code
  | [], g, g', code, u, h, hplaced, hnames, height, hm => by
      obtain ⟨rfl, -, rfl⟩ := pure_emits.mp h
      exact .nil
  | a :: args, g, g', code, u, h, hplaced, hnames, height, hm => by
      obtain ⟨c₁, g₁, c₂, ha, hargs, rfl⟩ := emits_argument h
      obtain ⟨hnames₁, hnames₂⟩ := List.forall_mem_append.mp hnames
      have hframe := lower_frame a ha
      have hrest := lowerArguments_over args hargs (hframe ▸ hplaced) hnames₂
        (height + 1) (by rw [hframe]; omega)
      rw [hframe] at hrest
      refine (lower_over a ha hplaced hnames₁ height hm).append ?_
      rw [rise_lower a ha, Int.add_zero]
      exact .cons (.inl trivial) hm ⟨rfl, rfl⟩ nofun hrest

end

theorem lower_piece {parameters : Nat} {e : Expr} {g g' : Generator} {code : List Line} {u : Unit}
    (h : e.lower.Emits g code u g') (hplaced : g.frame.Placed parameters)
    (hnames : ∀ x ∈ e.callees, '\n' ∉ x.toList) :
    Piece parameters g.labels g'.labels g.frame.locals
      (List.replicate e.lineCount g.frame.locals) code := by
  have hover := e.lower_over h hplaced hnames g.frame.locals (Int.le_refl _)
  rw [Over, e.length_lower h] at hover
  exact hover

/-- A value, and what is done with it. -/
theorem lower_piece_append {parameters high : Nat} {e : Expr} {g g' : Generator}
    {code rest : List Line} {ms : List Nat} {u : Unit} (h : e.lower.Emits g code u g')
    (hplaced : g.frame.Placed parameters) (hnames : ∀ x ∈ e.callees, '\n' ∉ x.toList)
    (hrest : Piece parameters g'.labels high g.frame.locals ms rest) :
    Piece parameters g.labels high g.frame.locals
      (List.replicate e.lineCount g.frame.locals ++ ms) (code ++ rest) := by
  refine (lower_piece h hplaced hnames).append ?_
  rwa [e.rise_lower h, Int.add_zero]

end Expr

/-! ### Statements -/

namespace Stmt

mutual

/-- Conditions govern blocks, in the statement and everywhere inside. -/
def GovernsBlocks : Stmt → Prop
  | block body _ => GovernsBlocksAll body
  | ifThen _ consequence _ => consequence.IsBlock ∧ consequence.GovernsBlocks
  | print _ _ | declare _ _ _ _ | assign _ _ _ | ret _ _ | evaluate _ => True

def GovernsBlocksAll : List Stmt → Prop
  | [] => True
  | s :: body => s.GovernsBlocks ∧ GovernsBlocksAll body

end

theorem declared_of_isBlock {s : Stmt} (h : s.IsBlock) : s.declared = [] := by
  cases s with
  | block body p => rfl
  | _ => exact h.elim

mutual

/-- In front of a statement nothing waits on the stack: it is as high as there are
variables. -/
theorem lower_piece {parameters : Nat} : (s : Stmt) → {g g' : Generator} → {code : List Line} →
    {u : Unit} → s.lower.Emits g code u g' → g.frame.Placed parameters →
    (∀ x ∈ s.callees, '\n' ∉ x.toList) → s.GovernsBlocks →
    Piece parameters g.labels g'.labels g.frame.locals (s.variablesAt g.frame.locals) code
  | block body p, g, g', code, u, h, hplaced, hnames, hblocks => by
      obtain ⟨c, g₁, hbody, rfl, rfl⟩ := emits_block h
      refine (lowerAll_piece body hbody hplaced hnames hblocks).append ?_
      rw [rise_lowerAll body hbody]
      exact .pops _ (Int.le_refl _)
  | ifThen condition consequence p, g, g', code, u, h, hplaced, hnames, hblocks => by
      obtain ⟨c₁, g₁, c₂, hcondition, hconsequence, rfl⟩ := emits_ifThen h
      obtain ⟨hnames₁, hnames₂⟩ := List.forall_mem_append.mp hnames
      have hframe : g₁.frame = g.frame := (condition.lower_frame hcondition).trans rfl
      have hnumber : IsNumbered (numbered "if_end" g.labels) g.labels := .inl rfl
      have hrise₁ := condition.rise_lower hcondition
      have hrise₂ := rise_lower consequence hconsequence
      -- A block declares nothing outside, so the label is as high as the jump.
      rw [declared_of_isBlock hblocks.1] at hrise₂
      have htest : Piece parameters g₁.labels g₁.labels g.frame.locals [g.frame.locals]
          [.instr (.compare 1)] :=
        .cons (.inl trivial) (Int.le_refl _) ⟨rfl, rfl⟩ nofun .nil
      have hfront := Expr.lower_piece_append hcondition hplaced hnames₁ htest
      have hbetween := lower_piece consequence hconsequence (hframe ▸ hplaced) hnames₂ hblocks.2
      rw [hframe] at hbetween
      have hrise : rise (c₁ ++ [.instr (.compare 1)]) = 0 := by
        rw [rise_append, hrise₁]
        rfl
      have hpiece := Piece.jumpOver (.inl rfl) hnumber (Int.le_refl _) hfront hbetween hrise hrise₂
      rw [variablesAt]
      simpa only [List.append_assoc, List.singleton_append] using hpiece
  | print value p, g, g', code, u, h, hplaced, hnames, hblocks => by
      obtain ⟨c, hvalue, rfl⟩ := emits_print h
      exact Expr.lower_piece_append hvalue hplaced hnames
        (.cons (.inl trivial) (Int.le_refl _) ⟨rfl, rfl⟩ nofun .nil)
  | declare x t value p, g, g', code, u, h, hplaced, hnames, hblocks => by
      obtain ⟨c, g₁, hvalue, -, rfl, rfl⟩ := emits_declare h
      exact Expr.lower_piece_append hvalue hplaced hnames
        (.cons (.inl trivial) (Int.le_refl _) ⟨rfl, rfl⟩ nofun .nil)
  | assign x value p, g, g', code, u, h, hplaced, hnames, hblocks => by
      obtain ⟨c, d, hvalue, hd, rfl⟩ := emits_assign h
      refine Expr.lower_piece_append hvalue hplaced hnames
        (.cons (.inl trivial) (Int.le_refl _) ⟨rfl, rfl⟩ ?_ .nil)
      rintro _ ⟨⟩
      rw [value.lower_frame hvalue] at hd
      exact hplaced.lookup hd
  | ret value p, g, g', code, u, h, hplaced, hnames, hblocks => by
      obtain ⟨c, hvalue, rfl⟩ := emits_ret h
      have hleave : Piece parameters g'.labels g'.labels g.frame.locals
          [g.frame.locals, g.frame.locals, g.frame.locals] leave :=
        .cons (.inl trivial) (Int.le_refl _) ⟨rfl, rfl⟩ nofun
          (.cons (.inl trivial) (Int.le_refl _) ⟨rfl, rfl⟩ nofun
            (.cons (.inl trivial) (Int.le_refl _) ⟨rfl, rfl⟩ nofun .nil))
      exact Expr.lower_piece_append hvalue hplaced hnames hleave
  | evaluate value, g, g', code, u, h, hplaced, hnames, hblocks =>
      Expr.lower_piece h hplaced hnames

theorem lowerAll_piece {parameters : Nat} : (body : List Stmt) → {g g' : Generator} →
    {code : List Line} → {u : Unit} → (lowerAll body).Emits g code u g' →
    g.frame.Placed parameters → (∀ x ∈ calleesAll body, '\n' ∉ x.toList) →
    GovernsBlocksAll body → Piece parameters g.labels g'.labels g.frame.locals
      (variablesAtAll g.frame.locals body) code
  | [], g, g', code, u, h, hplaced, hnames, hblocks => by
      obtain ⟨rfl, -, rfl⟩ := pure_emits.mp h
      exact .nil
  | s :: body, g, g', code, u, h, hplaced, hnames, hblocks => by
      obtain ⟨c₁, g₁, c₂, hs, hbody, rfl⟩ := emits_cons h
      obtain ⟨hnames₁, hnames₂⟩ := List.forall_mem_append.mp hnames
      have hframe := lower_frame s hs
      have hrest := lowerAll_piece body hbody (hframe ▸ hplaced.declareAll s.declared) hnames₂
        hblocks.2
      have hlocals : g₁.frame.locals = g.frame.locals + s.declared.length := by
        rw [hframe, Frame.locals_declareAll]
      rw [hlocals, Int.natCast_add] at hrest
      refine (lower_piece s hs hplaced hnames₁ hblocks.1).append ?_
      rwa [rise_lower s hs]

end

end Stmt

end Octet
