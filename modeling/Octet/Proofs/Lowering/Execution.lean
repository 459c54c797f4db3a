import Octet.Proofs.Lowering.Simulation

/-!
The code of statements does what an evaluation says. A statement either goes on
behind its code, with the variables as the evaluation has them then, or it
returns. In that case the function's part of the stack is gone but for the
parameters, which the caller has pushed and will take off again.
-/

namespace Octet

open Z80 Gen

variable {W C : Type} [CommRing W] [DecidableEq W] [Cell C] [Words W C]

/-! ### Running functions -/

/-- What a function has been left by its caller: the frame pointer and the
address to return to, the number of arguments, and the stack below them. -/
structure Caller (W C : Type) where
  saved : W
  ret : W
  count : Nat
  rest : List (C × C)

def Caller.size (k : Caller W C) : Nat := k.count + k.rest.length + 2

/-- A function is running for a caller, with these variables. -/
def Active (k : Caller W C) (m : Machine W C) (f : Frame) (vars : Vars (Option UInt8)) : Prop :=
  ∃ locals parameters, parameters.length = k.count ∧
    Activation m f vars locals k.saved k.ret parameters k.rest

section

variable (rom : Machine W C → Registers) (lines : List Line) (k : Caller W C) (m : Machine W C)

/-- A run at whose end the function is still running. -/
structure Continues (pc : W) (f : Frame) (vars : Vars (Option UInt8)) (out : Output)
    (m' : Machine W C) : Prop where
  runs : m.Runs rom lines m'
  pc : m'.pc = pc
  ix : m'.ix = m.ix
  output : m'.output = out
  active : Active k m' f vars

/-- A run at whose end the function has returned. -/
structure Returns (v : Option UInt8) (out : Output) (m' : Machine W C) : Prop where
  runs : m.Runs rom lines m'
  pc : m'.pc = k.ret
  ix : m'.ix = k.saved
  sp : m'.sp = m.ix + 4
  holds : ∃ parameters, parameters.length = k.count ∧ m'.Holds (parameters ++ k.rest)
  output : m'.output = out
  value : Represents v m'.registers.a

/-- The machine runs to an end of the kind that an evaluation has come to. -/
def Concludes (pc : W) (f : Frame) :
    Signal (Option UInt8) → Vars (Option UInt8) → Output → Prop
  | .next, vars, out => ∃ m', Continues rom lines k m pc f vars out m'
  | .returned v, _, out => ∃ m', Returns rom lines k m v out m'

end

variable {rom : Machine W C → Registers} {lines code : List Line} {limit reserve : Nat}
  {k : Caller W C} {m m' m₁ : Machine W C} {f f₁ : Frame} {vars vars₁ : Vars (Option UInt8)}

theorem Continues.placed {pc : W} {out : Output}
    (h : Continues rom lines k m pc f vars out m') (hplaced : Placed lines pc code) :
    Placed lines m'.pc code := by
  rw [h.pc]
  exact hplaced

theorem Continues.trans {pc₁ pc : W} {out₁ out : Output}
    (h₁ : Continues rom lines k m pc₁ f₁ vars₁ out₁ m₁)
    (h₂ : Continues rom lines k m₁ pc f vars out m') :
    Continues rom lines k m pc f vars out m' :=
  { h₂ with runs := h₁.runs.trans h₂.runs, ix := h₂.ix.trans h₁.ix }

theorem Continues.concludes {pc₁ pc : W} {out₁ out : Output} {signal : Signal (Option UInt8)}
    (h₁ : Continues rom lines k m pc₁ f₁ vars₁ out₁ m₁)
    (h₂ : Concludes rom lines k m₁ pc f signal vars out) :
    Concludes rom lines k m pc f signal vars out := by
  cases signal with
  | next =>
      obtain ⟨m₂, h₂⟩ := h₂
      exact ⟨m₂, h₁.trans h₂⟩
  | returned v =>
      obtain ⟨m₂, h₂⟩ := h₂
      exact ⟨m₂, { h₂ with runs := h₁.runs.trans h₂.runs, sp := by rw [h₂.sp, h₁.ix] }⟩

/-- Code that leaves the stack as it is can run inside of a function. -/
theorem Active.continues (hactive : Active k m f vars) {pc : W} {out : Output}
    {P : Machine W C → Prop}
    (hreaches : ∀ ws, m.Holds ws → Sees m f vars ws → ws.length = f.locals + k.size →
      ∃ m', Reaches rom lines m pc m.sp ws out m' ∧ P m') :
    ∃ m', Continues rom lines k m pc f vars out m' ∧ P m' := by
  obtain ⟨locals, parameters, hcount, ha⟩ := hactive
  have hlen := length_record locals k.saved k.ret parameters k.rest
  rw [ha.count, hcount] at hlen
  obtain ⟨m', h', hP⟩ := hreaches _ ha.holds ha.sees hlen
  exact ⟨m', ⟨h'.runs, h'.pc, h'.ix, h'.output, locals, parameters, hcount,
    ha.of_eq h'.holds h'.ix h'.sp⟩, hP⟩

/-- An expression may be evaluated while a function runs. -/
theorem Expr.continues {I : Interpreter (Option UInt8)} (hload : Loaded W lines limit)
    (hI : Served rom lines limit reserve I) (e : Expr) {g g' : Generator} {u : Unit}
    (h : e.lower.Emits g code u g') (hplaced : Placed lines m.pc code)
    (hactive : Active k m g.frame vars)
    (hroom : g.frame.locals + k.size + code.length + reserve ≤ limit) {v : Option UInt8}
    {out : Output} (heval : e.eval I vars m.output = .ok (v, out)) :
    ∃ m', Continues rom lines k m (m.pc + (codeSize code : W)) g'.frame vars out m' ∧
      Represents v m'.registers.a := by
  rw [lower_frame e h]
  refine hactive.continues fun ws hws hsees hlen => ?_
  exact e.simulated hload hI h hplaced hsees hws (by omega) heval

theorem Machine.runs_storeA (rom : Machine W C → Registers) (hload : Loaded W lines limit)
    {d : Int} (h : Placed lines m.pc (.instr (.storeA d) :: code)) (hd : addressable d = true) :
    ∃ m', m.Runs rom lines m' ∧ m'.pc = m.pc + ((Instr.storeA d).size : W) ∧ m'.ix = m.ix ∧
      m'.sp = m.sp ∧ m'.output = m.output ∧
      m'.memory = Function.update m.memory (m.ix + (d : W)) (byte m.registers.a) :=
  ⟨_, .instr h hload.code (if_pos hd), rfl, rfl, rfl, rfl, rfl⟩

/-- The end of a function gives up its local variables and returns. -/
theorem Active.leaves (hload : Loaded W lines limit) (hactive : Active k m f vars)
    (hplaced : Placed lines m.pc Stmt.leave) {v : Option UInt8}
    (hv : Represents v m.registers.a) : ∃ m', Returns rom lines k m v m.output m' := by
  obtain ⟨locals, parameters, hcount, ha⟩ := hactive
  have hholds : Z80.Holds m.memory m.ix
      (cells k.saved :: cells k.ret :: (parameters ++ k.rest)) := by
    rw [ha.base]
    exact Z80.Holds.drop ha.holds
  -- Below the local variables lie the words that the three instructions take off.
  obtain ⟨hsavedLow, hsavedHigh, hretLow, hretHigh, hrest⟩ := hholds
  have hpop := hplaced.tail
  have hret := hpop.tail
  have hruns : m.Runs rom lines _ := (Machine.Runs.instr hplaced hload.code rfl).trans
    ((Machine.Runs.instr hpop hload.code rfl).trans (Machine.Runs.instr hret hload.code rfl))
  refine ⟨_, ⟨hruns, ?_, ?_, ?_, ⟨parameters, hcount, ?_⟩, rfl, hv⟩⟩
  · show word (m.memory (m.ix + 2 + 1)) (m.memory (m.ix + 2)) = _
    rw [hretLow, hretHigh, cells, Words.word_high_low]
  · show word (m.memory (m.ix + 1)) (m.memory m.ix) = _
    rw [hsavedLow, hsavedHigh, cells, Words.word_high_low]
  · show m.ix + 2 + 2 = _
    ring
  · exact hrest

/-! ### Blocks -/

theorem Frame.Laid.openBlock {names : List String} (h : f.Laid names) :
    f.openBlock.Laid names :=
  ⟨h.names, h.place⟩

omit [DecidableEq W] in
theorem Active.openBlock (hactive : Active k m f vars) :
    Active k m f.openBlock ([] :: vars) := by
  obtain ⟨locals, parameters, hcount, ha⟩ := hactive
  exact ⟨locals, parameters, hcount, ha.holds, ha.base, ha.count, ha.values, ha.laid.openBlock⟩

/-- At the end of a block its variables are taken off the stack. -/
theorem Active.closeBlock (rom : Machine W C → Registers) (hload : Loaded W lines limit)
    {inner : Locals (Option UInt8)}
    {outer : Vars (Option UInt8)} (hactive : Active k m f₁ (inner :: outer))
    (hlocals : f₁.locals = f.locals + inner.length)
    (hlaid : f.Laid (outer.flatten.map Var.name))
    (hplaced : Placed lines m.pc (List.replicate inner.length (.instr .popBC))) :
    ∃ m', Continues rom lines k m (m.pc + (inner.length : W)) f outer m.output m' := by
  obtain ⟨locals, parameters, hcount, ha⟩ := hactive
  have hlength : locals.length = f.locals + inner.length := ha.count.trans hlocals
  have htake : (locals.take inner.length).length = inner.length := by
    rw [List.length_take]
    omega
  have hsplit : record locals k.saved k.ret parameters k.rest =
      locals.take inner.length ++
        record (locals.drop inner.length) k.saved k.ret parameters k.rest := by
    rw [record, record, ← List.append_assoc, List.take_append_drop]
  have hholds := ha.holds
  rw [hsplit] at hholds
  rw [← List.append_nil (List.replicate _ _)] at hplaced
  obtain ⟨m', h', -⟩ := Machine.reaches_pops rom hload htake hplaced hholds
  refine ⟨m', h'.runs, h'.pc, h'.ix, h'.output, locals.drop inner.length, parameters, hcount,
    h'.holds, ?_, ?_, ?_, hlaid⟩
  · rw [h'.ix, h'.sp, ha.base, List.length_drop, hlength, Nat.add_sub_cancel]
    push_cast
    ring
  · rw [List.length_drop, hlength, Nat.add_sub_cancel]
  · have hdrop := List.forall₂_drop inner.length ha.values
    rw [List.drop_append_of_le_length (by omega)] at hdrop
    simpa using hdrop

/-! ### Statements -/

section

variable (rom : Machine W C → Registers) (lines : List Line) (limit reserve : Nat)

/-- Code runs to the end that an execution comes to, from any machine on which a
function is running and that has enough of its stack left. -/
def Gen.Executes (x : Gen Unit) (exec : Vars (Option UInt8) → Output →
    Except Stop (Signal (Option UInt8) × Vars (Option UInt8) × Output)) : Prop :=
  ∀ ⦃g g' : Generator⦄ ⦃code : List Line⦄ ⦃u : Unit⦄, x.Emits g code u g' →
    ∀ ⦃k : Caller W C⦄ ⦃m : Machine W C⦄ ⦃vars : Vars (Option UInt8)⦄, Placed lines m.pc code →
    Active k m g.frame vars → g.frame.locals + k.size + code.length + reserve ≤ limit →
    ∀ ⦃signal : Signal (Option UInt8)⦄ ⦃vars' : Vars (Option UInt8)⦄ ⦃out : Output⦄,
    exec vars m.output = .ok (signal, vars', out) →
    Concludes rom lines k m (m.pc + (codeSize code : W)) g'.frame signal vars' out

variable (I : Interpreter (Option UInt8))

def Stmt.Simulated (s : Stmt) : Prop := s.lower.Executes rom lines limit reserve (s.exec I)

def Stmt.SimulatedAll (body : List Stmt) : Prop :=
  (Stmt.lowerAll body).Executes rom lines limit reserve (Stmt.execAll I body)

end

namespace Stmt

/-- Each declared variable is pushed by an instruction of its own. -/
theorem declared_length : (s : Stmt) → {g g' : Generator} → {code : List Line} → {u : Unit} →
    s.lower.Emits g code u g' → s.declared.length ≤ code.length
  | ifThen condition consequence p, g, g', code, u, h => by
      obtain ⟨c₁, g₁, c₂, -, hconsequence, rfl⟩ := emits_ifThen h
      have hlen := declared_length consequence hconsequence
      simp only [declared, List.length_append, List.length_cons]
      omega
  | declare x t value p, g, g', code, u, h => by
      obtain ⟨c, g₁, -, -, -, rfl⟩ := emits_declare h
      simp [declared]
  | block _ _, _, _, _, _, _ | print _ _, _, _, _, _, _ | assign _ _ _, _, _, _, _, _
  | ret _ _, _, _, _, _, _ | evaluate _, _, _, _, _, _ => Nat.zero_le _

variable {I : Interpreter (Option UInt8)} {s : Stmt} {body : List Stmt} {value : Expr}
  {p : Position}

theorem simulated_print (hload : Loaded W lines limit) (hI : Served rom lines limit reserve I) :
    (print value p).Simulated rom lines limit reserve I := by
  intro g g' code u h k m vars hplaced hactive hroom signal vars' out hexec
  obtain ⟨c, hvalue, rfl⟩ := emits_print h
  obtain ⟨v, out₁, n, heval, hprint, hr⟩ := exec_print_ok hexec
  cases hr
  rw [hI.domain] at hprint
  obtain rfl := Domain.known_ok hprint
  rw [List.length_append] at hroom
  obtain ⟨m₁, h₁, ha₁⟩ := value.continues hload hI hvalue hplaced.left hactive (by omega) heval
  refine h₁.concludes ⟨_, .instr (h₁.placed hplaced.right) hload.code rfl, ?_, rfl, ?_, ?_⟩
  · show m₁.pc + _ = _
    rw [h₁.pc, codeSize_append]
    push_cast [codeSize_cons, codeSize_nil, Line.size]
    ring
  · show m₁.output ++ [m₁.registers.a] = _
    rw [h₁.output, ha₁ n rfl]
  · obtain ⟨locals, parameters, hcount, hactive₁⟩ := h₁.active
    exact ⟨locals, parameters, hcount, hactive₁.of_eq hactive₁.holds rfl rfl⟩

theorem simulated_declare (hload : Loaded W lines limit)
    (hI : Served rom lines limit reserve I) {x : String} {t : Ty} :
    (declare x t value p).Simulated rom lines limit reserve I := by
  intro g g' code u h k m vars hplaced hactive hroom signal vars' out hexec
  obtain ⟨c, g₁, hvalue, hlocals, rfl, rfl⟩ := emits_declare h
  obtain ⟨v, out₁, w, heval, hkeep, hr⟩ := exec_declare_ok hexec
  cases hr
  rw [hI.domain] at hkeep
  obtain ⟨n, rfl, rfl⟩ := Domain.bytes_keep_ok hkeep
  rw [List.length_append, List.length_singleton, Caller.size] at hroom
  obtain ⟨m₁, h₁, ha₁⟩ := value.continues hload hI hvalue hplaced.left hactive
    (by rw [Caller.size]; omega) heval
  obtain ⟨locals, parameters, hcount, hactive₁⟩ := h₁.active
  have hlen := length_record locals k.saved k.ret parameters k.rest
  rw [hactive₁.count, hcount, Expr.lower_frame value hvalue] at hlen
  obtain ⟨m₂, h₂⟩ := Machine.reaches_pushAF rom hload (h₁.placed hplaced.right) hactive₁.holds
    (by omega)
  refine h₁.concludes ⟨m₂, h₂.runs, ?_, h₂.ix, h₂.output.trans h₁.output, _, parameters, hcount,
    hactive₁.declare hlocals h₂.holds h₂.ix h₂.sp ?_⟩
  · rw [h₂.pc, h₁.pc, codeSize_append]
    push_cast [codeSize_cons, codeSize_nil, Line.size]
    ring
  · rw [Cell.value_byte]
    exact ha₁

theorem simulated_assign (hload : Loaded W lines limit)
    (hI : Served rom lines limit reserve I) {x : String} :
    (assign x value p).Simulated rom lines limit reserve I := by
  intro g g' code u h k m vars hplaced hactive hroom signal vars' out hexec
  obtain ⟨c, d, hvalue, hd, rfl⟩ := emits_assign h
  obtain ⟨v, out₁, a, w, heval, ha, hkeep, hr⟩ := exec_assign_ok hexec
  cases hr
  rw [hI.domain] at hkeep
  obtain ⟨n, rfl, rfl⟩ := Domain.bytes_keep_ok hkeep
  rw [List.length_append, List.length_singleton, Caller.size] at hroom
  obtain ⟨m₁, h₁, ha₁⟩ := value.continues hload hI hvalue hplaced.left hactive
    (by rw [Caller.size]; omega) heval
  obtain ⟨locals, parameters, hcount, hactive₁⟩ := h₁.active
  have hlen := length_record locals k.saved k.ret parameters k.rest
  rw [hactive₁.count, hcount, Expr.lower_frame value hvalue] at hlen
  obtain ⟨hreach, -⟩ := hactive₁.place ha hd
  obtain ⟨m₂, hruns, hpc, hix, hsp, hout, hmemory⟩ :=
    Machine.runs_storeA rom hload (h₁.placed hplaced.right) hreach
  rw [ha₁ n rfl] at hmemory
  obtain ⟨locals', parameters', hparameters, hactive₂⟩ :=
    hactive₁.assign ha hd (hload.stack.mono (by omega)) n hmemory hix hsp
  refine h₁.concludes ⟨m₂, hruns, ?_, hix, hout.trans h₁.output, locals', parameters',
    hparameters.trans hcount, hactive₂⟩
  rw [hpc, h₁.pc, codeSize_append]
  push_cast [codeSize_cons, codeSize_nil, Line.size]
  ring

theorem simulated_ret (hload : Loaded W lines limit) (hI : Served rom lines limit reserve I) :
    (ret value p).Simulated rom lines limit reserve I := by
  intro g g' code u h k m vars hplaced hactive hroom signal vars' out hexec
  obtain ⟨c, hvalue, rfl⟩ := emits_ret h
  obtain ⟨v, out₁, heval, hr⟩ := exec_ret_ok hexec
  cases hr
  rw [List.length_append] at hroom
  obtain ⟨m₁, h₁, ha₁⟩ := value.continues hload hI hvalue hplaced.left hactive (by omega) heval
  obtain ⟨m₂, h₂⟩ := h₁.active.leaves hload (h₁.placed hplaced.right) ha₁
  rw [h₁.output] at h₂
  exact h₁.concludes ⟨m₂, h₂⟩

theorem simulated_evaluate (hload : Loaded W lines limit)
    (hI : Served rom lines limit reserve I) :
    (evaluate value).Simulated rom lines limit reserve I := by
  intro g g' code u h k m vars hplaced hactive hroom signal vars' out hexec
  obtain ⟨v, out₁, heval, hr⟩ := exec_evaluate_ok hexec
  cases hr
  obtain ⟨m₁, h₁, -⟩ := value.continues hload hI h hplaced hactive hroom heval
  exact ⟨m₁, h₁⟩

theorem SimulatedAll.block (hload : Loaded W lines limit) (hshaped : ShapedAll body)
    (hbody : SimulatedAll rom lines limit reserve I body) :
    (block body p).Simulated rom lines limit reserve I := by
  intro g g' code u h k m vars hplaced hactive hroom signal vars' out hexec
  obtain ⟨c, g₁, hlower, rfl, rfl⟩ := emits_block h
  obtain ⟨vars₁, hexec₁, hvars⟩ := exec_block_ok hexec
  rw [List.length_append] at hroom
  have hconcludes := hbody hlower hplaced.left hactive.openBlock
    (by show g.frame.locals + _ + _ + _ ≤ _; omega) hexec₁
  cases signal with
  -- Whoever returns from inside has given up all of the stack, and pops nothing.
  | returned v => exact hconcludes
  | next =>
      obtain ⟨m₁, h₁⟩ := hconcludes
      obtain ⟨inner, outer, rfl, hlength, hshape⟩ := execAll_scope hshaped hexec₁
      obtain rfl : vars' = outer := hvars
      have hlocals : g₁.frame.locals = g.frame.locals + inner.length := by
        rw [lowerAll_frame body hlower, Frame.locals_declareAll, hlength]
        rfl
      have hlaid : g.frame.Laid (vars'.flatten.map Var.name) := by
        obtain ⟨locals, parameters, -, ha⟩ := hactive
        rw [Vars.names_flatten, hshape, ← Vars.names_flatten]
        exact ha.laid
      rw [← hlength] at hplaced ⊢
      obtain ⟨m₂, h₂⟩ := h₁.active.closeBlock rom hload hlocals hlaid (h₁.placed hplaced.right)
      rw [h₁.output] at h₂
      refine ⟨m₂, h₁.trans { h₂ with pc := ?_ }⟩
      rw [h₂.pc, h₁.pc, codeSize_append, codeSize_pops]
      push_cast
      ring

theorem Simulated.ifThen (hload : Loaded W lines limit) (hI : Served rom lines limit reserve I)
    {condition : Expr} (hblock : s.IsBlock) (hs : s.Simulated rom lines limit reserve I) :
    (ifThen condition s p).Simulated rom lines limit reserve I := by
  intro g g' code u h k m vars hplaced hactive hroom signal vars' out hexec
  obtain ⟨c₁, g₁, c₂, hlower₁, hlower₂, rfl⟩ := emits_ifThen h
  obtain ⟨v, out₁, b, heval, hcondition, hr⟩ := exec_ifThen_ok hexec
  rw [hI.domain] at hcondition
  obtain ⟨n, rfl, rfl⟩ := Domain.bytes_condition_ok hcondition
  simp only [List.length_append, List.length_cons] at hroom
  have hlocals : g₁.frame.locals = g.frame.locals := by
    rw [Expr.lower_frame condition hlower₁]
  obtain ⟨m₁, h₁, ha₁⟩ := condition.continues hload hI hlower₁ hplaced.left hactive
    (by show g.frame.locals + _ + _ + _ ≤ _; omega) heval
  have hcompare := h₁.placed hplaced.right
  obtain ⟨m₂, h₂, hr₂⟩ := h₁.active.continues fun ws hws _ _ =>
    Machine.reaches_registers rom hload hcompare hws rfl
  -- The consequence is a block, so that the frame is the same on both ways.
  have hframe : g'.frame = g₁.frame := by
    rw [lower_frame s hlower₂]
    cases s with
    | block body q => rfl
    | _ => exact hblock.elim
  have hzero : m₂.registers.zero = (n == 1) := by
    rw [hr₂]
    show (m₁.registers.a == 1) = _
    rw [ha₁ n rfl]
  have hjump := h₂.placed hcompare.tail
  have htarget := hjump.tail.right
  have hend : m₂.pc + ((Instr.jumpNZ (numbered "if_end" g.labels)).size : W) +
      (codeSize c₂ : W) = m.pc + (codeSize (c₁ ++ .instr (.compare 1) ::
        .instr (.jumpNZ (numbered "if_end" g.labels)) ::
        (c₂ ++ [.label (numbered "if_end" g.labels)])) : W) := by
    rw [h₂.pc, h₁.pc]
    simp only [codeSize_append, codeSize_cons, codeSize_nil, Line.size, Instr.size]
    push_cast
    ring
  cases hn : (n == 1) with
  | true =>
      rw [hn] at hr hzero
      obtain ⟨m₃, h₃, -⟩ := h₂.active.continues fun ws hws _ _ =>
        Machine.reaches_jump rom hload hjump hws (if_pos hzero)
      rw [← h₁.output, ← h₂.output, ← h₃.output] at hr
      have hconcludes :=
        hs hlower₂ (h₃.placed hjump.tail.left) h₃.active (by rw [hlocals]; omega) hr
      rw [h₃.pc, hend] at hconcludes
      exact h₁.concludes (h₂.concludes (h₃.concludes hconcludes))
  | false =>
      rw [hn] at hr hzero
      cases hr
      have hexec : m₂.exec rom (labelFrom origin lines) (.jumpNZ (numbered "if_end" g.labels)) =
          some { m₂ with pc := m.pc + (codeSize (c₁ ++ .instr (.compare 1) ::
            .instr (.jumpNZ (numbered "if_end" g.labels)) ::
            (c₂ ++ [.label (numbered "if_end" g.labels)])) : W) } := by
        show (if m₂.registers.zero then _ else _) = _
        rw [hzero, if_neg Bool.false_ne_true, htarget.label hload.labels, ← hend]
        rfl
      obtain ⟨m₃, h₃, -⟩ := h₂.active.continues fun ws hws _ _ =>
        Machine.reaches_jump rom hload hjump hws hexec
      rw [h₂.output, h₁.output, ← hframe] at h₃
      exact ⟨m₃, h₁.trans (h₂.trans h₃)⟩

theorem SimulatedAll.cons (hs : s.Simulated rom lines limit reserve I)
    (hbody : SimulatedAll rom lines limit reserve I body) :
    SimulatedAll rom lines limit reserve I (s :: body) := by
  intro g g' code u h k m vars hplaced hactive hroom signal vars' out hexec
  obtain ⟨c₁, g₁, c₂, hlower₁, hlower₂, rfl⟩ := emits_cons h
  rw [List.length_append] at hroom
  rcases execAll_cons_ok hexec with ⟨vars₁, out₁, hfirst, hrest⟩ | ⟨v, hfirst, hreturned⟩
  · obtain ⟨m₁, h₁⟩ := hs hlower₁ hplaced.left hactive (by omega) hfirst
    -- What the first statement leaves on the stack has been paid for by its own lines.
    have hlocals : g₁.frame.locals ≤ g.frame.locals + c₁.length := by
      rw [lower_frame s hlower₁, Frame.locals_declareAll]
      exact Nat.add_le_add_left (declared_length s hlower₁) _
    rw [← h₁.output] at hrest
    have hconcludes := hbody hlower₂ (h₁.placed hplaced.right) h₁.active (by omega) hrest
    rw [h₁.pc, add_assoc, ← Nat.cast_add, ← codeSize_append] at hconcludes
    exact h₁.concludes hconcludes
  · obtain rfl : signal = .returned v := hreturned
    exact hs hlower₁ hplaced.left hactive (by omega) hfirst

mutual

theorem simulated (hload : Loaded W lines limit) (hI : Served rom lines limit reserve I) :
    (s : Stmt) → s.Shaped → s.Simulated rom lines limit reserve I
  | .block body _, h => SimulatedAll.block hload h (simulatedAll hload hI body h)
  | .ifThen _ s _, h => (simulated hload hI s h.2).ifThen hload hI h.1
  | print _ _, _ => simulated_print hload hI
  | declare _ _ _ _, _ => simulated_declare hload hI
  | assign _ _ _, _ => simulated_assign hload hI
  | ret _ _, _ => simulated_ret hload hI
  | evaluate _, _ => simulated_evaluate hload hI

theorem simulatedAll (hload : Loaded W lines limit) (hI : Served rom lines limit reserve I) :
    (body : List Stmt) → ShapedAll body → SimulatedAll rom lines limit reserve I body
  | [], _ => by
      intro g g' code u h k m vars hplaced hactive hroom signal vars' out hexec
      obtain ⟨rfl, -, rfl⟩ := pure_emits.mp h
      cases hexec
      exact ⟨m, .refl, by simp, rfl, rfl, hactive⟩
  | s :: body, h => SimulatedAll.cons (simulated hload hI s h.1) (simulatedAll hload hI body h.2)

end

end Stmt

end Octet
