import Mathlib.Data.List.Flatten
import Octet.Compile
import Octet.Proofs.Lowering.Labels
import Octet.Proofs.Lowering.Limits
import Octet.Proofs.Token.Tiling
import Octet.Proofs.Tree.WellFormed

/-!
Where generated code goes. Whatever it calls or jumps to has a label in it. A
call goes to a function of the program. A jump goes forward, to a label further
down in the code of the same function, and no two jumps go to the same label.

The code of a function is made of pieces in which every label has its jump, so
that the jumps of a piece are its labels in another order. Pieces one behind the
other have that property together, and a piece between a jump and its label has
it with the two of them.
-/

namespace Octet

namespace Z80

/-- The label that a line calls, if it does. -/
def Line.call? : Line → Option String
  | instr (.call l) => some l
  | _ => none

/-- The label that a line jumps to if a comparison has failed. -/
def Line.jump? : Line → Option String
  | instr (.jumpNZ l) => some l
  | instr (.jumpShortNZ l) => some l
  | _ => none

def calls (lines : List Line) : List String := lines.filterMap Line.call?

def jumps (lines : List Line) : List String := lines.filterMap Line.jump?

@[simp] theorem calls_append (c₁ c₂ : List Line) : calls (c₁ ++ c₂) = calls c₁ ++ calls c₂ := by
  simp [calls]

@[simp] theorem jumps_append (c₁ c₂ : List Line) : jumps (c₁ ++ c₂) = jumps c₁ ++ jumps c₂ := by
  simp [jumps]

theorem mem_jumps_cons {l : String} {code : List Line} (line : Line) (h : l ∈ jumps code) :
    l ∈ jumps (line :: code) := by
  rw [← List.singleton_append, jumps_append]
  exact List.mem_append_right _ h

/-- The instruction goes on with the next line. -/
def Instr.Plain (i : Instr) : Prop := Line.call? (.instr i) = none ∧ Line.jump? (.instr i) = none

end Z80

open Z80 Gen

/-! ### Pieces of code -/

/-- Every call of the code is one of some functions. Every label of it has a
number, and one jump goes to it, from in front. -/
structure Linked (P : String → Prop) (code : List Line) : Prop where
  calls : ∀ l ∈ calls code, ∃ x, P x ∧ l = functionLabel x
  numbered : ∀ l ∈ labels code, ∃ n, IsNumbered l n
  perm : (jumps code).Perm (labels code)
  forward : ∀ before l behind, code = before ++ .label l :: behind → l ∈ jumps before

namespace Linked

variable {P : String → Prop} {code c₁ c₂ : List Line}

theorem nil : Linked P [] := ⟨nofun, nofun, .nil, fun _ _ _ h => by simp at h⟩

theorem append (h₁ : Linked P c₁) (h₂ : Linked P c₂) : Linked P (c₁ ++ c₂) where
  calls := by
    rw [calls_append, List.forall_mem_append]
    exact ⟨h₁.calls, h₂.calls⟩
  numbered := by
    rw [labels_append, List.forall_mem_append]
    exact ⟨h₁.numbered, h₂.numbered⟩
  perm := by
    rw [jumps_append, labels_append]
    exact h₁.perm.append h₂.perm
  forward := by
    intro before l behind h
    rcases List.append_eq_append_iff.mp h with ⟨us, rfl, hus⟩ | ⟨us, hus, h⟩
    · rw [jumps_append]
      exact List.mem_append_right _ (h₂.forward us l behind hus)
    · cases us with
      | nil =>
          rw [List.append_nil] at hus
          rw [← hus]
          have := h₂.forward [] l behind (by simpa using h.symm)
          simp [jumps] at this
      | cons u us =>
          obtain ⟨rfl, -⟩ := List.cons.inj h
          exact h₁.forward before l us hus

/-- An instruction in front moves no label in front of its jump. -/
theorem forward_instr (h : Linked P code) (i : Instr) (before : List Line) (l : String)
    (behind : List Line) (hcode : .instr i :: code = before ++ .label l :: behind) :
    l ∈ jumps before := by
  cases before with
  | nil => cases hcode
  | cons b before =>
      obtain ⟨-, hrest⟩ := List.cons.inj hcode
      exact mem_jumps_cons b (h.forward before l behind hrest)

theorem instr {i : Instr} (hi : i.Plain) (h : Linked P code) : Linked P (.instr i :: code) where
  calls := by
    rw [Z80.calls, List.filterMap_cons_none hi.1]
    exact h.calls
  numbered := h.numbered
  perm := by
    rw [jumps, List.filterMap_cons_none hi.2]
    exact h.perm
  forward := h.forward_instr i

theorem pops (n : Nat) : Linked P (List.replicate n (.instr .popBC)) := by
  induction n with
  | zero => exact nil
  | succ n ih => exact ih.instr ⟨rfl, rfl⟩

theorem call {x : String} (hx : P x) (h : Linked P code) :
    Linked P (.instr (.call (functionLabel x)) :: code) where
  calls := List.forall_mem_cons.mpr ⟨⟨x, hx, rfl⟩, h.calls⟩
  numbered := h.numbered
  perm := h.perm
  forward := h.forward_instr _

/-- A piece between a jump and its label. -/
theorem jumpOver {i : Instr} {l : String} {n : Nat} (hl : IsNumbered l n)
    (hjump : Line.jump? (.instr i) = some l) (hcall : Line.call? (.instr i) = none)
    (h : Linked P code) : Linked P (.instr i :: (code ++ [.label l])) where
  calls := by
    rw [Z80.calls, List.filterMap_cons_none hcall]
    simpa [Z80.calls, Line.call?] using h.calls
  numbered := by
    change ∀ k ∈ labels (code ++ [.label l]), ∃ n, IsNumbered k n
    rw [labels_append, List.forall_mem_append]
    exact ⟨h.numbered, List.forall_mem_singleton.mpr ⟨n, hl⟩⟩
  perm := by
    have hjumps : jumps (.instr i :: (code ++ [.label l])) = l :: jumps code := by
      rw [jumps, List.filterMap_cons_some hjump]
      simp [jumps, Line.jump?]
    have hlabels : labels (.instr i :: (code ++ [.label l])) = labels code ++ [l] := by
      change labels (code ++ [.label l]) = _
      rw [labels_append]
      rfl
    rw [hjumps, hlabels]
    exact (h.perm.cons l).trans (List.perm_append_singleton l _).symm
  forward := by
    intro before k behind hcode
    cases before with
    | nil => cases hcode
    | cons b before =>
        obtain ⟨rfl, hrest⟩ := List.cons.inj hcode
        rw [jumps, List.filterMap_cons_some hjump]
        -- The label is the last line of the piece, or it lies inside, with its jump.
        rcases List.append_eq_append_iff.mp hrest with ⟨us, rfl, hus⟩ | ⟨us, rfl, hus⟩
        · cases us with
          | nil =>
              cases hus
              exact List.mem_cons_self
          | cons u us => simp at hus
        · cases us with
          | nil =>
              cases hus
              exact List.mem_cons_self
          | cons u us =>
              obtain ⟨rfl, -⟩ := List.cons.inj hus
              exact List.mem_cons_of_mem _ (h.forward before k us rfl)

end Linked

/-! ### Code -/

theorem Comparison.lower_linked {P : String → Prop} {c : Comparison} {g g' : Generator}
    {code : List Line} {u : Unit} (h : c.lower.Emits g code u g') : Linked P code := by
  obtain ⟨rfl, -⟩ := Comparison.emits h
  have hbetween : Linked P [.instr (.loadA (truth c.whenSame))] := .instr ⟨rfl, rfl⟩ .nil
  exact .instr ⟨rfl, rfl⟩ (.instr ⟨rfl, rfl⟩ (hbetween.jumpOver (.inr rfl) rfl rfl))

namespace Expr

mutual

/-- The code of an expression calls the functions that the expression calls. -/
theorem lower_linked {P : String → Prop} : (e : Expr) → {g g' : Generator} → {code : List Line} →
    {u : Unit} → e.lower.Emits g code u g' → (∀ x ∈ e.callees, P x) → Linked P code
  | number n p, g, g', code, u, h, hP => by
      obtain ⟨rfl, -⟩ := instrs_emits.mp h
      exact .instr ⟨rfl, rfl⟩ .nil
  | boolean b p, g, g', code, u, h, hP => by
      obtain ⟨rfl, -⟩ := instrs_emits.mp h
      exact .instr ⟨rfl, rfl⟩ .nil
  | var x p, g, g', code, u, h, hP => by
      obtain ⟨d, -, rfl, -⟩ := emits_var h
      exact .instr ⟨rfl, rfl⟩ .nil
  | negate e p, g, g', code, u, h, hP => by
      obtain ⟨c, he, rfl⟩ := emits_negate h
      exact (lower_linked e he hP).append (.instr ⟨rfl, rfl⟩ .nil)
  | add l r p, g, g', code, u, h, hP => by
      obtain ⟨c₁, g₁, c₂, hl, hr, rfl⟩ := emits_add h
      have hl := lower_linked l hl fun x hx => hP x (List.mem_append_left _ hx)
      have hr := lower_linked r hr fun x hx => hP x (List.mem_append_right _ hx)
      exact hl.append (.instr ⟨rfl, rfl⟩ (hr.append (.instr ⟨rfl, rfl⟩ (.instr ⟨rfl, rfl⟩ .nil))))
  | compare c l r p, g, g', code, u, h, hP => by
      obtain ⟨c₁, g₁, c₂, g₂, c₃, hl, hr, hc, rfl⟩ := emits_compare h
      have hl := lower_linked l hl fun x hx => hP x (List.mem_append_left _ hx)
      have hr := lower_linked r hr fun x hx => hP x (List.mem_append_right _ hx)
      have hc : Linked P c₃ := Comparison.lower_linked hc
      exact hl.append (.instr ⟨rfl, rfl⟩ (hr.append (.instr ⟨rfl, rfl⟩ hc)))
  | call f args p, g, g', code, u, h, hP => by
      obtain ⟨c, hargs, rfl⟩ := emits_call h
      have hargs := lowerArguments_linked args hargs fun x hx => hP x (List.mem_cons_of_mem _ hx)
      exact hargs.append (.call (hP f List.mem_cons_self) (.pops _))

theorem lowerArguments_linked {P : String → Prop} : (args : List Expr) → {g g' : Generator} →
    {code : List Line} → {u : Unit} → (lowerArguments args).Emits g code u g' →
    (∀ x ∈ calleesAll args, P x) → Linked P code
  | [], g, g', code, u, h, hP => by
      obtain ⟨rfl, -⟩ := pure_emits.mp h
      exact .nil
  | a :: args, g, g', code, u, h, hP => by
      obtain ⟨c₁, g₁, c₂, ha, hargs, rfl⟩ := emits_argument h
      have ha := lower_linked a ha fun x hx => hP x (List.mem_append_left _ hx)
      have hargs := lowerArguments_linked args hargs fun x hx => hP x (List.mem_append_right _ hx)
      exact ha.append (.instr ⟨rfl, rfl⟩ hargs)

end

end Expr

namespace Stmt

theorem leave_linked {P : String → Prop} : Linked P leave :=
  .instr ⟨rfl, rfl⟩ (.instr ⟨rfl, rfl⟩ (.instr ⟨rfl, rfl⟩ .nil))

mutual

theorem lower_linked {P : String → Prop} : (s : Stmt) → {g g' : Generator} → {code : List Line} →
    {u : Unit} → s.lower.Emits g code u g' → (∀ x ∈ s.callees, P x) → Linked P code
  | block body p, g, g', code, u, h, hP => by
      obtain ⟨c, g₁, hbody, -, rfl⟩ := emits_block h
      exact (lowerAll_linked body hbody hP).append (.pops _)
  | ifThen condition consequence p, g, g', code, u, h, hP => by
      obtain ⟨c₁, g₁, c₂, hcondition, hconsequence, rfl⟩ := emits_ifThen h
      have hcondition :=
        Expr.lower_linked condition hcondition fun x hx => hP x (List.mem_append_left _ hx)
      have hconsequence :=
        lower_linked consequence hconsequence fun x hx => hP x (List.mem_append_right _ hx)
      exact hcondition.append (.instr ⟨rfl, rfl⟩ (hconsequence.jumpOver (.inl rfl) rfl rfl))
  | print value p, g, g', code, u, h, hP => by
      obtain ⟨c, hvalue, rfl⟩ := emits_print h
      exact (Expr.lower_linked value hvalue hP).append (.instr ⟨rfl, rfl⟩ .nil)
  | declare x t value p, g, g', code, u, h, hP => by
      obtain ⟨c, g₁, hvalue, -, -, rfl⟩ := emits_declare h
      exact (Expr.lower_linked value hvalue hP).append (.instr ⟨rfl, rfl⟩ .nil)
  | assign x value p, g, g', code, u, h, hP => by
      obtain ⟨c, d, hvalue, -, rfl⟩ := emits_assign h
      exact (Expr.lower_linked value hvalue hP).append (.instr ⟨rfl, rfl⟩ .nil)
  | ret value p, g, g', code, u, h, hP => by
      obtain ⟨c, hvalue, rfl⟩ := emits_ret h
      exact (Expr.lower_linked value hvalue hP).append leave_linked
  | evaluate value, g, g', code, u, h, hP => Expr.lower_linked value h hP

theorem lowerAll_linked {P : String → Prop} : (body : List Stmt) → {g g' : Generator} →
    {code : List Line} → {u : Unit} → (lowerAll body).Emits g code u g' →
    (∀ x ∈ calleesAll body, P x) → Linked P code
  | [], g, g', code, u, h, hP => by
      obtain ⟨rfl, -⟩ := pure_emits.mp h
      exact .nil
  | s :: body, g, g', code, u, h, hP => by
      obtain ⟨c₁, g₁, c₂, hs, hbody, rfl⟩ := emits_cons h
      have hs := lower_linked s hs fun x hx => hP x (List.mem_append_left _ hx)
      have hbody := lowerAll_linked body hbody fun x hx => hP x (List.mem_append_right _ hx)
      exact hs.append hbody

end

end Stmt

/-! ### Sections -/

/-- The lines of some functions: for each an empty line, its label and its code. -/
def sections (ss : List (Function × List Line)) : List Line :=
  ss.flatMap fun s => .blank :: .label (functionLabel s.1.name) :: s.2

theorem labels_sections (ss : List (Function × List Line)) :
    labels (sections ss) = ss.flatMap fun s => functionLabel s.1.name :: labels s.2 := by
  rw [labels, sections, List.filterMap_flatMap]
  rfl

theorem jumps_sections (ss : List (Function × List Line)) :
    jumps (sections ss) = ss.flatMap fun s => jumps s.2 := by
  rw [jumps, sections, List.filterMap_flatMap]
  rfl

theorem calls_sections (ss : List (Function × List Line)) :
    calls (sections ss) = ss.flatMap fun s => calls s.2 := by
  rw [calls, sections, List.filterMap_flatMap]
  rfl

namespace Function

/-- The code of functions is in sections, one for each. -/
theorem lowerAll_sections {P : String → Prop} : (fs : List Function) → {g g' : Generator} →
    {code : List Line} → {u : Unit} → (lowerAll fs).Emits g code u g' →
    (∀ f ∈ fs, ∀ x ∈ Stmt.calleesAll f.body.body, P x) →
    ∃ ss, code = sections ss ∧ ss.map Prod.fst = fs ∧ ∀ s ∈ ss, Linked P s.2
  | [], g, g', code, u, h, hP => by
      obtain ⟨rfl, -⟩ := pure_emits.mp h
      exact ⟨[], rfl, rfl, nofun⟩
  | f :: fs, g, g', code, u, h, hP => by
      obtain ⟨c₁, g₁, c₂, hf, hfs, rfl⟩ := emits_cons h
      obtain ⟨frame, c, -, hbody, rfl⟩ := f.emits hf
      obtain ⟨hf, hP⟩ := List.forall_mem_cons.mp hP
      obtain ⟨ss, rfl, rfl, hlinked⟩ := lowerAll_sections fs hfs hP
      have hbody := (Stmt.lower_linked f.body.toStmt hbody hf).append Stmt.leave_linked
      refine ⟨(f, _) :: ss, rfl, rfl, List.forall_mem_cons.mpr ⟨?_, hlinked⟩⟩
      exact .instr ⟨rfl, rfl⟩ (.instr ⟨rfl, rfl⟩ (.instr ⟨rfl, rfl⟩ hbody))

end Function

/-! ### Programs -/

/-- The label begins as those of functions do. -/
def isFunctionLabel (l : String) : Bool := "fn_".toList.isPrefixOf l.toList

theorem isFunctionLabel_functionLabel (x : String) : isFunctionLabel (functionLabel x) = true := by
  rw [isFunctionLabel, functionLabel, String.toList_append, List.isPrefixOf_iff_prefix]
  exact List.prefix_append _ _

theorem head?_of_isFunctionLabel {l : String} (h : isFunctionLabel l = true) :
    l.toList.head? = some 'f' := by
  obtain ⟨rest, hrest⟩ := List.isPrefixOf_iff_prefix.mp h
  rw [← hrest]
  rfl

theorem IsNumbered.isFunctionLabel {l : String} {n : Nat} (h : IsNumbered l n) :
    isFunctionLabel l = false := by
  by_contra hlabel
  have hf := head?_of_isFunctionLabel (eq_true_of_ne_false hlabel)
  rcases h.head? with hhead | hhead <;>
    · rw [hf] at hhead
      cases hhead

namespace Program

/-- The jump to the label stands above it, in the code of one function. -/
def JumpedTo (p : Program) (lines : List Line) (l : String) : Prop :=
  ∃ f ∈ p.functions, ∃ before c₁ jump c₂ behind,
    lines = before ++ .label (functionLabel f.name) :: (c₁ ++ jump :: (c₂ ++ .label l :: behind)) ∧
    jump.jump? = some l ∧ ∀ k ∈ labels (c₁ ++ c₂), isFunctionLabel k = false

/-- The lines of a program have all the labels that they need, each of them once. -/
structure Closed (p : Program) (lines : List Line) : Prop where
  nodup : (labels lines).Nodup
  sorts : ∀ l ∈ labels lines, l = "start" ∨ isFunctionLabel l = true ∨ ∃ n, IsNumbered l n
  start : "start" ∈ labels lines
  functions : (labels lines).filter isFunctionLabel =
    p.functions.map fun f => functionLabel f.name
  target : ∀ l ∈ calls lines ++ jumps lines, l ∈ labels lines
  numbered : ∀ l ∈ labels lines, ∀ n, IsNumbered l n →
    (jumps lines).count l = 1 ∧ p.JumpedTo lines l

variable {p : Program} {P : String → Prop} {ss : List (Function × List Line)}

theorem filter_labels_sections (h : ∀ s ∈ ss, Linked P s.2) :
    (labels (sections ss)).filter isFunctionLabel =
      (ss.map Prod.fst).map fun f => functionLabel f.name := by
  rw [labels_sections]
  induction ss with
  | nil => rfl
  | cons s ss ih =>
      obtain ⟨hs, hss⟩ := List.forall_mem_cons.mp h
      have hnone : (labels s.2).filter isFunctionLabel = [] := by
        rw [List.filter_eq_nil_iff]
        intro l hl
        obtain ⟨n, hn⟩ := hs.numbered l hl
        simp [hn.isFunctionLabel]
      rw [List.flatMap_cons, List.filter_append, ih hss,
        List.filter_cons_of_pos (isFunctionLabel_functionLabel _), hnone]
      rfl

theorem mem_labels_sections {l : String} :
    l ∈ labels (sections ss) ↔ ∃ s ∈ ss, l = functionLabel s.1.name ∨ l ∈ labels s.2 := by
  simp [labels_sections]

/-- Every jump has a label of its own. -/
theorem jumps_sections_nodup (h : ∀ s ∈ ss, Linked P s.2) (hnodup : (labels (sections ss)).Nodup) :
    jumps (sections ss) ⊆ labels (sections ss) ∧ (jumps (sections ss)).Nodup := by
  rw [labels_sections] at hnodup ⊢
  rw [jumps_sections]
  have hperm : (ss.flatMap fun s => jumps s.2).Perm (ss.flatMap fun s => labels s.2) :=
    List.Perm.flatMap_left ss fun s hs => (h s hs).perm
  have hsub : (ss.flatMap fun s => labels s.2).Sublist
      (ss.flatMap fun s => functionLabel s.1.name :: labels s.2) :=
    List.Sublist.flatMap_right ss fun s _ => List.sublist_cons_self _ _
  exact ⟨fun l hl => hsub.subset (hperm.subset hl), hperm.nodup_iff.mpr (hnodup.sublist hsub)⟩

/-- A label in a section has its jump in the same section. -/
theorem jumpedTo_sections (h : ∀ s ∈ ss, Linked P s.2) {s : Function × List Line} (hs : s ∈ ss)
    {l : String} (hl : l ∈ labels s.2) (front back : List Line) :
    ∃ before c₁ jump c₂ behind, front ++ (sections ss ++ back) =
        before ++ .label (functionLabel s.1.name) :: (c₁ ++ jump :: (c₂ ++ .label l :: behind)) ∧
      jump.jump? = some l ∧ ∀ k ∈ labels (c₁ ++ c₂), isFunctionLabel k = false := by
  obtain ⟨above, below, rfl⟩ := List.append_of_mem hs
  obtain ⟨line, hline, hlabel⟩ := List.mem_filterMap.mp hl
  obtain ⟨code, rest, hcode⟩ := List.append_of_mem hline
  obtain rfl : line = .label l := by
    cases line <;> simp_all [Line.label?]
  obtain ⟨jump, hjump, htarget⟩ := List.mem_filterMap.mp ((h s hs).forward code l rest hcode)
  obtain ⟨c₁, c₂, rfl⟩ := List.append_of_mem hjump
  refine ⟨front ++ (sections above ++ [.blank]), c₁, jump, c₂,
    rest ++ (sections below ++ back), ?_, htarget, fun k hk => ?_⟩
  · simp [sections, hcode]
  · have hsub : (c₁ ++ c₂).Sublist s.2 := by
      rw [hcode]
      exact ((List.Sublist.refl c₁).append (List.sublist_cons_self jump c₂)).trans
        (List.sublist_append_left _ _)
    obtain ⟨n, hn⟩ := (h s hs).numbered k ((hsub.filterMap Line.label?).subset hk)
    exact hn.isFunctionLabel

/-- What is found in the start and the sections only is found there. -/
theorem filterMap_lines {found : Line → Option String} (hblank : found .blank = none)
    (hdirective : ∀ d, found (.directive d) = none) (snapshot : Option String) (p : Program)
    (c : List Line) :
    (header snapshot ++ p.start ++ (c ++ trailer snapshot)).filterMap found =
      p.start.filterMap found ++ c.filterMap found := by
  cases snapshot <;> simp [header, trailer, hblank, hdirective]

theorem jumps_start (p : Program) : jumps p.start = [] := by
  unfold Program.start
  split <;> rfl

/-- The calls of a typed program go to its functions. -/
theorem mem_of_calls (htyped : p.WellTyped) (hss : ss.map Prod.fst = p.functions)
    (hlinked : ∀ s ∈ ss, Linked (fun x => ∃ f ∈ p.functions, f.name = x) s.2) {l : String}
    (hl : l ∈ calls p.start ++ calls (sections ss)) : l ∈ labels (sections ss) := by
  obtain ⟨f, hf, rfl⟩ : ∃ f ∈ p.functions, l = functionLabel f.name := by
    rcases List.mem_append.mp hl with hl | hl
    · unfold Program.start at hl
      split at hl
      · next hmain =>
          obtain ⟨f, hf⟩ := Option.isSome_iff_exists.mp hmain
          obtain rfl : l = functionLabel "main" := List.mem_singleton.mp hl
          obtain ⟨hmem, hname⟩ := (main?_eq_some htyped.distinct).mp hf
          exact ⟨f, hmem, by rw [hname]⟩
      · cases hl
    · rw [calls_sections] at hl
      obtain ⟨s, hs, hl⟩ := List.mem_flatMap.mp hl
      obtain ⟨x, ⟨f, hf, rfl⟩, rfl⟩ := (hlinked s hs).calls l hl
      exact ⟨f, hf, rfl⟩
  rw [← hss] at hf
  obtain ⟨s, hs, rfl⟩ := List.mem_map.mp hf
  exact mem_labels_sections.mpr ⟨s, hs, .inl rfl⟩

/-- The code of a typed program has the labels that it needs, each of them once. -/
theorem closed_of_lines {snapshot : Option String} {lines : List Line} (htyped : p.WellTyped)
    (hlines : p.assemblyLines snapshot = .ok lines) (hnodup : (labels lines).Nodup) :
    p.Closed lines := by
  obtain ⟨g', hemits⟩ := assemblyLines_ok hlines
  obtain ⟨-, c, hfunctions, rfl⟩ := emits hemits
  obtain ⟨ss, rfl, hss, hlinked⟩ :=
    Function.lowerAll_sections p.functions hfunctions fun f hf => htyped.callees hf
  rw [← List.append_assoc] at hnodup ⊢
  have hlabels : labels (header snapshot ++ p.start ++ (sections ss ++ trailer snapshot)) =
      "start" :: labels (sections ss) := by
    rw [List.append_assoc, labels_lines]
  have hjumps : jumps (header snapshot ++ p.start ++ (sections ss ++ trailer snapshot)) =
      jumps (sections ss) := by
    rw [jumps, filterMap_lines rfl fun _ => rfl]
    change jumps p.start ++ _ = _
    rw [jumps_start, List.nil_append]
    rfl
  have hcalls : calls (header snapshot ++ p.start ++ (sections ss ++ trailer snapshot)) =
      calls p.start ++ calls (sections ss) :=
    filterMap_lines rfl (fun _ => rfl) snapshot p (sections ss)
  rw [hlabels, List.nodup_cons] at hnodup
  obtain ⟨hjumped, hjumpsNodup⟩ := jumps_sections_nodup hlinked hnodup.2
  constructor
  case nodup => rwa [hlabels, List.nodup_cons]
  case sorts =>
    rw [hlabels]
    intro l hl
    rcases List.mem_cons.mp hl with rfl | hl
    · exact .inl rfl
    · obtain ⟨s, hs, rfl | hl⟩ := mem_labels_sections.mp hl
      · exact .inr (.inl (isFunctionLabel_functionLabel _))
      · exact .inr (.inr ((hlinked s hs).numbered l hl))
  case start =>
    rw [hlabels]
    exact List.mem_cons_self
  case functions =>
    rw [hlabels, List.filter_cons_of_neg (by decide), filter_labels_sections hlinked, hss]
  case target =>
    rw [hlabels, hcalls, hjumps]
    intro l hl
    rcases List.mem_append.mp hl with hl | hl
    · exact List.mem_cons_of_mem _ (mem_of_calls htyped hss hlinked hl)
    · exact List.mem_cons_of_mem _ (hjumped hl)
  case numbered =>
    rw [hlabels, hjumps]
    intro l hl n hn
    -- A label with a number is in some section, since it is neither the start nor a function's.
    obtain ⟨s, hs, hmem⟩ : ∃ s ∈ ss, l ∈ labels s.2 := by
      rcases List.mem_cons.mp hl with rfl | hl
      · rcases hn.head? with hhead | hhead <;> cases hhead
      · obtain ⟨s, hs, rfl | hl⟩ := mem_labels_sections.mp hl
        · have hfunction := hn.isFunctionLabel
          rw [isFunctionLabel_functionLabel] at hfunction
          cases hfunction
        · exact ⟨s, hs, hl⟩
    have hjump : l ∈ jumps (sections ss) := by
      rw [jumps_sections]
      exact List.mem_flatMap.mpr ⟨s, hs, (hlinked s hs).perm.mem_iff.mpr hmem⟩
    refine ⟨List.count_eq_one_of_mem hjumpsNodup hjump, s.1, ?_, ?_⟩
    · rw [← hss]
      exact List.mem_map_of_mem hs
    · exact jumpedTo_sections hlinked hs hmem _ _

end Program

/-! ### Texts -/

theorem IsName.isWord {x : String} (h : IsName x) : IsWord x := by
  intro c hc
  have hword := Token.continuesWord_of_isWord h.1 c hc
  constructor
  · rintro rfl
    cases hword
  · rintro rfl
    cases hword

theorem compile_ok {source : String} {snapshot : Option String} {text : String} :
    compile source snapshot = .ok text ↔ ∃ p, Program.ofSource source = .ok p ∧
      p.typeCheck = .ok () ∧ p.assembly snapshot = .ok text := by
  simp only [compile, Result.bind_ok, Result.mapError_ok]
  constructor
  · rintro ⟨p, hread, u, hcheck, htext⟩
    exact ⟨p, hread, hcheck, htext⟩
  · rintro ⟨p, hread, hcheck, htext⟩
    exact ⟨p, hread, (), hcheck, htext⟩

/-- The assembly text of a source text is closed. -/
theorem compile_closed {source : String} {snapshot : Option String} {text : String}
    (hsnapshot : ∀ name, snapshot = some name → '\n' ∉ name.toList)
    (h : compile source snapshot = .ok text) :
    ∃ p lines, Program.ofSource source = .ok p ∧ lines? text = some lines ∧
      Line.join lines = text ∧ p.Closed lines := by
  obtain ⟨p, hsource, hcheck, htext⟩ := compile_ok.mp h
  obtain ⟨tokens, -, hread⟩ := Program.ofSource_ok.mp hsource
  have htyped := (Program.ofTokens_shaped hread).typeCheck_iff.mp hcheck
  have hnames : ∀ f ∈ p.functions, IsWord f.name :=
    fun f hf => (Program.wellFormed_of_ofSource hsource f hf).name.isWord
  obtain ⟨lines, hlines, rfl⟩ := Program.assembly_ok.mp htext
  obtain ⟨hnodup, hlegible⟩ := Program.lines_tidy htyped hnames hsnapshot hlines
  exact ⟨p, lines, hsource, lines?_join hlegible, rfl,
    Program.closed_of_lines htyped hlines hnodup⟩

/-- A condition in a condition, comparisons, a function that calls itself, and a
name for a snapshot. -/
theorem compile_closed_nested : ∃ source text p lines,
    compile source (some "demo") = .ok text ∧ Program.ofSource source = .ok p ∧
    lines? text = some lines ∧ Line.join lines = text ∧ p.Closed lines ∧
    (labels lines).filter isFunctionLabel = ["fn_f", "fn_main"] := by
  let source := "def f(a: u8) -> bool:
    if a == 1:
        if f(a):
            return a != 3
    return true
def main() -> void:
    f(0)
"
  have hcompile : (compile source (some "demo")).toOption.isSome = true := by decide +kernel
  have hnames : (Program.ofSource source).toOption.map
      (fun p => p.functions.map fun f => functionLabel f.name) =
    some ["fn_f", "fn_main"] := by decide +kernel
  have hname : ∀ name, some "demo" = some name → '\n' ∉ name.toList := by
    rintro _ ⟨⟩
    decide
  obtain ⟨text, htext⟩ := Option.isSome_iff_exists.mp hcompile
  have htext := Result.ok_of_toOption htext
  obtain ⟨p, lines, hread, hlines, hjoin, hclosed⟩ := compile_closed hname htext
  rw [hread] at hnames
  exact ⟨source, text, p, lines, htext, hread, hlines, hjoin, hclosed,
    hclosed.functions.trans (Option.some.inj hnames)⟩

end Octet
