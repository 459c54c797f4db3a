import Octet.Proofs.Lowering.Heights

/-!
The stack agrees with the frame. The code of an expression takes off what it
pushes, that of a statement leaves the variables which the statement declares, and
that of a block nothing. Nothing is taken off that was there before. At a label the
stack is as high after a jump as without one. What the code reads and writes in the
frame is a parameter or a variable that has been pushed, and never an operand that
waits.

All of this is said of the text, which is divided into lines again. There a call is
one line as long as the name of its function has no line end in it, but with blanks
in the name it is no instruction.
-/

namespace Octet

open Z80 Gen

/-! ### Ends of functions -/

/-- The lines that leave a function stand together, in their order. -/
inductive Whole : List Line → Prop where
  | nil : Whole []
  | cons {line : Line} {code : List Line} : line ∉ Stmt.leave → Whole code → Whole (line :: code)
  | leave {code : List Line} : Whole code → Whole (Stmt.leave ++ code)

namespace Whole

theorem append {c₁ c₂ : List Line} (h₁ : Whole c₁) (h₂ : Whole c₂) : Whole (c₁ ++ c₂) := by
  induction h₁ with
  | nil => exact h₂
  | cons hline _ ih => exact .cons hline ih
  | leave _ ih =>
      rw [List.append_assoc]
      exact .leave ih

theorem of_notMem {code : List Line} (h : ∀ line ∈ code, line ∉ Stmt.leave) : Whole code := by
  induction code with
  | nil => exact .nil
  | cons line code ih =>
      obtain ⟨hline, hcode⟩ := List.forall_mem_cons.mp h
      exact .cons hline (ih hcode)

end Whole

namespace Expr

mutual

/-- An expression never leaves the function. -/
theorem lower_stays : (e : Expr) → {g g' : Generator} → {code : List Line} → {u : Unit} →
    e.lower.Emits g code u g' → ∀ line ∈ code, line ∉ Stmt.leave
  | number n p, g, g', code, u, h => by
      obtain ⟨rfl, -⟩ := instrs_emits.mp h
      simp [Stmt.leave]
  | boolean b p, g, g', code, u, h => by
      obtain ⟨rfl, -⟩ := instrs_emits.mp h
      simp [Stmt.leave]
  | var x p, g, g', code, u, h => by
      obtain ⟨d, -, rfl, -⟩ := emits_var h
      simp [Stmt.leave]
  | negate e p, g, g', code, u, h => by
      obtain ⟨c, he, rfl⟩ := emits_negate h
      exact List.forall_mem_append.mpr ⟨lower_stays e he, by decide⟩
  | add l r p, g, g', code, u, h => by
      obtain ⟨c₁, g₁, c₂, hl, hr, rfl⟩ := emits_add h
      refine List.forall_mem_append.mpr ⟨lower_stays l hl, List.forall_mem_cons.mpr ⟨by decide, ?_⟩⟩
      exact List.forall_mem_append.mpr ⟨lower_stays r hr, by decide⟩
  | compare c l r p, g, g', code, u, h => by
      obtain ⟨c₁, g₁, c₂, g₂, c₃, hl, hr, hc, rfl⟩ := emits_compare h
      obtain ⟨rfl, -⟩ := Comparison.emits hc
      refine List.forall_mem_append.mpr ⟨lower_stays l hl, List.forall_mem_cons.mpr ⟨by decide, ?_⟩⟩
      exact List.forall_mem_append.mpr ⟨lower_stays r hr, by simp [Stmt.leave]⟩
  | call f args p, g, g', code, u, h => by
      obtain ⟨c, hargs, rfl⟩ := emits_call h
      exact List.forall_mem_append.mpr ⟨lowerArguments_stays args hargs, by simp [Stmt.leave]⟩

theorem lowerArguments_stays : (args : List Expr) → {g g' : Generator} → {code : List Line} →
    {u : Unit} → (lowerArguments args).Emits g code u g' → ∀ line ∈ code, line ∉ Stmt.leave
  | [], g, g', code, u, h => by
      obtain ⟨rfl, -⟩ := pure_emits.mp h
      exact nofun
  | a :: args, g, g', code, u, h => by
      obtain ⟨c₁, g₁, c₂, ha, hargs, rfl⟩ := emits_argument h
      refine List.forall_mem_append.mpr ⟨lower_stays a ha, ?_⟩
      exact List.forall_mem_cons.mpr ⟨by decide, lowerArguments_stays args hargs⟩

end

theorem lower_whole {e : Expr} {g g' : Generator} {code : List Line} {u : Unit}
    (h : e.lower.Emits g code u g') : Whole code := .of_notMem (e.lower_stays h)

end Expr

namespace Stmt

mutual

theorem lower_whole : (s : Stmt) → {g g' : Generator} → {code : List Line} → {u : Unit} →
    s.lower.Emits g code u g' → Whole code
  | block body p, g, g', code, u, h => by
      obtain ⟨c, g₁, hbody, -, rfl⟩ := emits_block h
      exact (lowerAll_whole body hbody).append (.of_notMem (by simp [leave]))
  | ifThen condition consequence p, g, g', code, u, h => by
      obtain ⟨c₁, g₁, c₂, hcondition, hconsequence, rfl⟩ := emits_ifThen h
      have hrest : Whole (c₂ ++ [.label (numbered "if_end" g.labels)]) :=
        (lower_whole consequence hconsequence).append (.of_notMem (by simp [leave]))
      exact (Expr.lower_whole hcondition).append (.cons (by decide) (.cons (by simp [leave]) hrest))
  | print value p, g, g', code, u, h => by
      obtain ⟨c, hvalue, rfl⟩ := emits_print h
      exact (Expr.lower_whole hvalue).append (.of_notMem (by decide))
  | declare x t value p, g, g', code, u, h => by
      obtain ⟨c, g₁, hvalue, -, -, rfl⟩ := emits_declare h
      exact (Expr.lower_whole hvalue).append (.of_notMem (by decide))
  | assign x value p, g, g', code, u, h => by
      obtain ⟨c, d, hvalue, -, rfl⟩ := emits_assign h
      exact (Expr.lower_whole hvalue).append (.of_notMem (by simp [leave]))
  | ret value p, g, g', code, u, h => by
      obtain ⟨c, hvalue, rfl⟩ := emits_ret h
      exact (Expr.lower_whole hvalue).append (.leave .nil)
  | evaluate value, g, g', code, u, h => Expr.lower_whole h

theorem lowerAll_whole : (body : List Stmt) → {g g' : Generator} → {code : List Line} →
    {u : Unit} → (lowerAll body).Emits g code u g' → Whole code
  | [], g, g', code, u, h => by
      obtain ⟨rfl, -⟩ := pure_emits.mp h
      exact .nil
  | s :: body, g, g', code, u, h => by
      obtain ⟨c₁, g₁, c₂, hs, hbody, rfl⟩ := emits_cons h
      exact (lower_whole s hs).append (lowerAll_whole body hbody)

end

end Stmt

/-! ### Lines of a text -/

namespace Z80

/-- The line that a text is, or else the text as it stands. -/
def Line.ofText (s : List Char) : Line := (ofText? s).getD (.verbatim (String.ofList s))

/-- The lines of a text in which every line has an end. -/
def linesOf (text : String) : List Line := (Text.split '\n' text.toList).dropLast.map Line.ofText

/-- The second line does to the stack what the first one does, goes where the first
one goes, and leaves the function if the first one does. -/
structure Line.StandsFor (a b : Line) : Prop where
  rise : b.rise = a.rise
  distance : b.distance? = a.distance?
  jump : b.jump? = a.jump?
  label : b.label? = a.label?
  leave : a ∈ Stmt.leave ∨ b ∈ Stmt.leave → b = a

theorem Line.StandsFor.refl (line : Line) : line.StandsFor line :=
  ⟨rfl, rfl, rfl, rfl, fun _ => rfl⟩

theorem Instr.eq_call_of_ofWords? {ws : List String} {i : Instr}
    (h : ofWords? ("call" :: ws) = some i) : ∃ l, i = .call l := by
  rcases ws with _ | ⟨l, _ | ⟨_, _ | ⟨_, _⟩⟩⟩
  · simp [ofWords?] at h
  · exact ⟨l, by simpa [ofWords?] using h.symm⟩
  · simp [ofWords?] at h
  · simp [ofWords?] at h

namespace Line.Readable

theorem newline_notMem {line : Line} (h : line.Readable) : '\n' ∉ line.body := by
  rcases h with h | ⟨l, rfl, hl⟩
  · exact newline_notMem_body h
  · simpa [body, Instr.text, String.toList_append] using hl

/-- What is read of a line stands for it. A call with blanks in the name of its
function is no instruction, but no call does anything to the stack here. -/
theorem standsFor {line : Line} (h : line.Readable) : line.StandsFor (ofText line.body) := by
  rcases h with h | ⟨l, rfl, -⟩
  · rw [ofText, ofText?_body h]
    exact .refl line
  · have hwords : words (Instr.call l).text.toList = "call" :: words l.toList := by
      rw [Instr.text, String.toList_append]
      rfl
    rw [ofText, ofText?_instr, hwords]
    rcases hread : Instr.ofWords? ("call" :: words l.toList) with _ | i
    · exact ⟨rfl, rfl, rfl, rfl, by simp [Stmt.leave]⟩
    · obtain ⟨k, rfl⟩ := Instr.eq_call_of_ofWords? hread
      exact ⟨rfl, rfl, rfl, rfl, by simp [Stmt.leave]⟩

end Line.Readable

theorem linesOf_join {code : List Line} (h : ∀ line ∈ code, line.Readable) :
    List.Forall₂ Line.StandsFor code (linesOf (Line.join code)) := by
  have hlines : linesOf (Line.join code) = code.map fun line => Line.ofText line.body := by
    rw [linesOf, split_join fun line hline => (h line hline).newline_notMem, List.dropLast_concat,
      List.map_map]
    rfl
  rw [hlines, List.forall₂_map_right_iff, List.forall₂_same]
  exact fun line hline => (h line hline).standsFor

end Z80

/-! ### Lines that stand for others -/

section

variable {code lines : List Line}

theorem rise_standsFor (h : List.Forall₂ Line.StandsFor code lines) : rise lines = rise code := by
  induction h with
  | nil => rfl
  | cons hline _ ih => rw [rise_cons, rise_cons, hline.rise, ih]

theorem jumps_standsFor (h : List.Forall₂ Line.StandsFor code lines) :
    jumps lines = jumps code := by
  induction h with
  | nil => rfl
  | cons hline _ ih =>
      unfold jumps at ih ⊢
      rw [List.filterMap_cons, List.filterMap_cons, hline.jump, ih]

theorem Poised.standsFor {parameters low high : Nat} {heights : Nat → Int} {height : Int}
    {ms : List Nat} (hcode : Poised (Sits parameters low high heights) height ms code)
    (h : List.Forall₂ Line.StandsFor code lines) :
    Poised (Sits parameters low high heights) height ms lines := by
  induction hcode generalizing lines with
  | nil =>
      cases h
      exact .nil
  | cons hsits _ ih =>
      obtain _ | ⟨hline, hrest⟩ := h
      refine .cons ⟨hsits.pushed, ?_, ?_⟩ ?_
      · rw [hline.distance]
        exact hsits.reach
      · rw [hline.jump, hline.label]
        exact hsits.level
      · rw [hline.rise]
        exact ih hrest

theorem Whole.standsFor (hcode : Whole code) (h : List.Forall₂ Line.StandsFor code lines) :
    Whole lines := by
  induction hcode generalizing lines with
  | nil =>
      cases h
      exact .nil
  | cons hstays _ ih =>
      obtain _ | ⟨hline, hrest⟩ := h
      refine .cons (fun hleave => ?_) (ih hrest)
      rw [hline.leave (.inr hleave)] at hleave
      exact hstays hleave
  | leave _ ih =>
      obtain _ | ⟨h₁, _ | ⟨h₂, _ | ⟨h₃, hrest⟩⟩⟩ := h
      obtain rfl := h₁.leave (.inl (by decide))
      obtain rfl := h₂.leave (.inl (by decide))
      obtain rfl := h₃.leave (.inl (by decide))
      exact .leave (ih hrest)

/-- Every label stands behind its jump, as it does in the code. -/
theorem Linked.forward_standsFor {P : String → Prop} (hcode : Linked P code)
    (h : List.Forall₂ Line.StandsFor code lines) {before behind : List Line} {l : String}
    (hlines : lines = before ++ .label l :: behind) : l ∈ jumps before := by
  subst hlines
  have hbefore := List.forall₂_take_append _ _ _ h
  have hbehind := List.forall₂_drop_append _ _ _ h
  obtain ⟨line, rest, hline, -, hdrop⟩ := List.forall₂_cons_right_iff.mp hbehind
  have hlabel : line = .label l := by
    have hsome : line.label? = some l := hline.label.symm
    cases line with
    | label k => exact congrArg Line.label (Option.some.inj hsome)
    | _ => cases hsome
  rw [jumps_standsFor hbefore]
  refine hcode.forward _ l rest ?_
  rw [← hlabel, ← hdrop, List.take_append_drop]

theorem stays_standsFor (hcode : ∀ line ∈ code, line ∉ Stmt.leave)
    (h : List.Forall₂ Line.StandsFor code lines) : ∀ line ∈ lines, line ∉ Stmt.leave := by
  induction h with
  | nil => exact nofun
  | cons hline _ ih =>
      obtain ⟨hstays, hcode⟩ := List.forall_mem_cons.mp hcode
      refine List.forall_mem_cons.mpr ⟨fun hleave => ?_, ih hcode⟩
      rw [hline.leave (.inr hleave)] at hleave
      exact hstays hleave

end

/-! ### Texts -/

/-- The lines leave the stack as high as it was, and take nothing off that was there
before. -/
structure Balanced (lines : List Line) : Prop where
  even : rise lines = 0
  above : ∀ front behind, lines = front ++ behind → 0 ≤ rise front

/-- The lines keep order on a stack with so many local variables on it, where there
are so many parameters, and so many local variables in front of each line. -/
structure KeepsStack (parameters locals : Nat) (ms : List Nat) (lines : List Line) : Prop where
  /-- Nothing is taken off that was there before. -/
  above : ∀ front behind, lines = front ++ behind → 0 ≤ rise front
  /-- There is a jump to every label, in front of it, and wherever there is one the
  stack is as high as at the label. -/
  level : ∀ before l behind, lines = before ++ .label l :: behind →
    l ∈ jumps before ∧ ∀ front line rest, lines = front ++ line :: rest →
      line.jump? = some l → rise front = rise before
  /-- A line reads and writes only parameters and local variables that have been
  pushed. -/
  reach : ∀ before line behind d, lines = before ++ line :: behind → line.distance? = some d →
    ∃ m : Nat, ms[before.length]? = some m ∧ m ≤ locals + rise before ∧ Addresses parameters m d
  /-- The lines that leave the function do it together. -/
  whole : Whole lines

theorem KeepsStack.of_poised {P : String → Prop} {parameters low high locals : Nat}
    {heights : Nat → Int} {ms : List Nat} {code lines : List Line}
    (hpoised : Poised (Sits parameters low high heights) locals ms lines)
    (hms : ∀ m ∈ ms, locals ≤ m) (hrise : 0 ≤ rise lines) (hlinked : Linked P code)
    (hwhole : Whole lines) (hlines : List.Forall₂ Line.StandsFor code lines) :
    KeepsStack parameters locals ms lines where
  above := by
    intro front behind h
    cases behind with
    | nil => rwa [h, List.append_nil] at hrise
    | cons line rest =>
        obtain ⟨m, hm, hsits⟩ := hpoised.line h
        have hle : locals ≤ m := hms m (List.mem_of_getElem? hm)
        have hpushed := hsits.pushed
        omega
  level := by
    intro before l behind h
    refine ⟨hlinked.forward_standsFor hlines h, fun front line rest hjump hl => ?_⟩
    obtain ⟨_, -, hlabel⟩ := hpoised.line h
    obtain ⟨_, -, hsits⟩ := hpoised.line hjump
    -- The label has one number only, and with it one height.
    obtain ⟨n, -, -, hn, hheight⟩ := hlabel.level l (.inr rfl)
    obtain ⟨n', -, -, hn', hheight'⟩ := hsits.level l (.inl hl)
    obtain rfl := hn.unique hn'
    omega
  reach := by
    intro before line behind d h hd
    obtain ⟨m, hm, hsits⟩ := hpoised.line h
    exact ⟨m, hm, hsits.pushed, hsits.reach d hd⟩
  whole := hwhole

namespace Stmt

variable {parameters : Nat} {s : Stmt} {g g' : Generator} {code : List Line} {u : Unit}

theorem rise_text (h : s.lower.Emits g code u g') (hplaced : g.frame.Placed parameters)
    (hnames : ∀ x ∈ s.callees, '\n' ∉ x.toList) (hblocks : s.GovernsBlocks) :
    rise (linesOf (Line.join code)) = s.declared.length := by
  have hpiece := s.lower_piece h hplaced hnames hblocks
  rw [rise_standsFor (linesOf_join hpiece.lines), s.rise_lower h]

theorem keepsStack (h : s.lower.Emits g code u g') (hplaced : g.frame.Placed parameters)
    (hnames : ∀ x ∈ s.callees, '\n' ∉ x.toList) (hblocks : s.GovernsBlocks) :
    KeepsStack parameters g.frame.locals (s.variablesAt g.frame.locals)
      (linesOf (Line.join code)) := by
  have hpiece := s.lower_piece h hplaced hnames hblocks
  have hlines := linesOf_join hpiece.lines
  obtain ⟨heights, hpoised⟩ := hpiece.poised
  have hrise : 0 ≤ rise (linesOf (Line.join code)) := by
    rw [rise_text h hplaced hnames hblocks]
    omega
  have hlinked : Linked (fun _ => True) code := s.lower_linked h fun _ _ => trivial
  exact .of_poised (hpoised.standsFor hlines) (fun _ => s.le_of_mem_variablesAt) hrise hlinked
    ((s.lower_whole h).standsFor hlines) hlines

/-- Where nothing is declared, the text is balanced. -/
theorem balanced (h : s.lower.Emits g code u g') (hplaced : g.frame.Placed parameters)
    (hnames : ∀ x ∈ s.callees, '\n' ∉ x.toList) (hblocks : s.GovernsBlocks)
    (hdeclared : s.declared = []) : Balanced (linesOf (Line.join code)) where
  even := by
    rw [rise_text h hplaced hnames hblocks, hdeclared]
    rfl
  above := (keepsStack h hplaced hnames hblocks).above

end Stmt

namespace Generator.Reached

/-- From a state on the way lowering leads to such states. Let the names of the
functions that are called have no line end in them. The text of an expression is
balanced and stays in the function. If conditions govern blocks, the text of a
statement raises the stack by the variables that are counted more behind it, and
keeps order on the stack. A block leaves the frame alone and its text is balanced. -/
theorem stack_agrees {parameters : Nat} {g : Generator} (hg : g.Reached parameters) :
    ((∀ e : Expr, (e.lower g).after.Reached parameters) ∧
      (∀ s : Stmt, (s.lower g).after.Reached parameters) ∧
      (∀ f : Function, (f.lower g).after.OnTheWay) ∧
      ∀ (p : Program) snapshot, (p.lower snapshot g).after.OnTheWay) ∧
    (∀ (e : Expr) code g', e.lower.Emits g code () g' → (∀ x ∈ e.callees, '\n' ∉ x.toList) →
      g'.frame = g.frame ∧ Balanced (linesOf (Line.join code)) ∧
        ∀ line ∈ linesOf (Line.join code), line ∉ Stmt.leave) ∧
    (∀ (s : Stmt) code g', s.lower.Emits g code () g' → (∀ x ∈ s.callees, '\n' ∉ x.toList) →
      s.GovernsBlocks →
      rise (linesOf (Line.join code)) = (g'.frame.locals : Int) - g.frame.locals ∧
        KeepsStack parameters g.frame.locals (s.variablesAt g.frame.locals)
          (linesOf (Line.join code))) ∧
    ∀ (b : Block) code g', b.lower.Emits g code () g' →
      (∀ x ∈ b.toStmt.callees, '\n' ∉ x.toList) → b.toStmt.GovernsBlocks →
      g'.frame = g.frame ∧ Balanced (linesOf (Line.join code)) := by
  have hlasting := reached_lasting parameters
  have hplaced := hg.placed
  refine ⟨⟨fun e => e.lower_leads hlasting g hg, fun s => s.lower_leads hlasting g hg,
    fun f => f.lower_leads g ⟨_, hg⟩, fun p snapshot => p.lower_leads snapshot g ⟨_, hg⟩⟩,
    ?_, ?_, ?_⟩
  · intro e code g' h hnames
    have hpiece := Expr.lower_piece h hplaced hnames
    refine ⟨e.lower_frame h, ?_, stays_standsFor (e.lower_stays h) (linesOf_join hpiece.lines)⟩
    exact Stmt.balanced (s := .evaluate e) h hplaced hnames trivial rfl
  · intro s code g' h hnames hblocks
    refine ⟨?_, Stmt.keepsStack h hplaced hnames hblocks⟩
    rw [Stmt.rise_text h hplaced hnames hblocks, s.lower_frame h, Frame.locals_declareAll]
    omega
  · intro b code g' h hnames hblocks
    exact ⟨b.toStmt.lower_frame h, Stmt.balanced h hplaced hnames hblocks rfl⟩

/-- A block with a variable of its own in a condition, a return in front of the end
of that block, and a call of a function with a blank in its name. -/
theorem stack_agrees_nested :
    ∃ (g : Generator) (b : Block), g.Reached 1 ∧ (∀ x ∈ b.toStmt.callees, '\n' ∉ x.toList) ∧
      b.toStmt.GovernsBlocks ∧ (b.lower g).outcome = .ok () ∧ (b.lower g).lines.length = 37 ∧
      (b.lower g).after.frame = g.frame ∧
      Balanced (linesOf (Line.join (b.lower g).lines)) ∧
      KeepsStack 1 0 (b.toStmt.variablesAt 0) (linesOf (Line.join (b.lower g).lines)) := by
  let p : Position := default
  let g : Generator := { Generator.initial with frame := (Frame.enter "f" ["n"] p).1 }
  let inner : Stmt := .block [.declare "b" .u8 (.negate (.var "a" p) p) p,
    .assign "n" (.add (.var "b" p) (.var "n" p) p) p, .ret (.var "n" p) p] p
  let b : Block := ⟨[.declare "a" .u8 (.number 1 p) p,
    .ifThen (.compare .equal (.var "a" p) (.call "g h" [.var "n" p, .number 2 p] p) p) inner p,
    .print (.var "a" p) p], p⟩
  have hg : g.Reached 1 := Generator.Reached.initial.enter "f" ["n"] p
  have hnames : ∀ x ∈ b.toStmt.callees, '\n' ∉ x.toList := by
    decide
  have hinner : inner.GovernsBlocks := ⟨trivial, trivial, trivial, trivial⟩
  have hblocks : b.toStmt.GovernsBlocks := ⟨trivial, ⟨trivial, hinner⟩, trivial, trivial⟩
  have houtcome : (b.lower g).outcome = .ok () := by decide +kernel
  have hemits : b.lower.Emits g (b.lower g).lines () (b.lower g).after := by
    rw [Emits, ← houtcome]
  obtain ⟨-, -, hstatement, hblock⟩ := stack_agrees hg
  obtain ⟨hframe, hbalanced⟩ := hblock b _ _ hemits hnames hblocks
  exact ⟨g, b, hg, hnames, hblocks, houtcome, by decide +kernel, hframe, hbalanced,
    (hstatement b.toStmt _ _ hemits hnames hblocks).2⟩

end Generator.Reached

end Octet
