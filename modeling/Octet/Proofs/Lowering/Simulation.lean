import Octet.Proofs.Lowering.Activation

/-!
The code of an expression does what an evaluation says. Standing in its place,
on a machine whose stack holds the variables of the evaluation, it runs to its
end and leaves the value in `a`, the stack as it was, and the output of the
evaluation.

A run needs room on the stack. A piece of code pushes no more words than it has
lines, and a call needs what is held in `reserve` for it; how much that is
depends on how deep calls go, and is settled where functions are put together.
-/

namespace Octet

open Z80 Gen

/-! ### Values -/

namespace Domain

open Result

theorem known_ok {v : Option UInt8} {n : UInt8} (h : bytes.known v = .ok n) : v = some n := by
  cases v with
  | none => cases h
  | some m => rw [Except.ok.inj h]

theorem bytes_negate_ok {v w : Option UInt8} (h : bytes.negate v = .ok w) :
    ∃ n, v = some n ∧ w = some (-n) := by
  obtain ⟨n, hn, hw⟩ := bind_ok.mp h
  exact ⟨n, known_ok hn, (pure_ok.mp hw).symm⟩

theorem bytes_add_ok {v w z : Option UInt8} (h : bytes.add v w = .ok z) :
    ∃ m n, v = some m ∧ w = some n ∧ z = some (m + n) := by
  obtain ⟨m, hm, h₁⟩ := bind_ok.mp h
  obtain ⟨n, hn, hz⟩ := bind_ok.mp h₁
  exact ⟨m, n, known_ok hm, known_ok hn, (pure_ok.mp hz).symm⟩

theorem bytes_compare_ok {c : Comparison} {v w z : Option UInt8}
    (h : bytes.compare c v w = .ok z) :
    ∃ m n, v = some m ∧ w = some n ∧ z = some (truth (c.result (m == n))) := by
  obtain ⟨m, hm, h₁⟩ := bind_ok.mp h
  obtain ⟨n, hn, hz⟩ := bind_ok.mp h₁
  exact ⟨m, n, known_ok hm, known_ok hn, (pure_ok.mp hz).symm⟩

theorem bytes_condition_ok {v : Option UInt8} {b : Bool} (h : bytes.condition v = .ok b) :
    ∃ n, v = some n ∧ b = (n == 1) := by
  obtain ⟨n, hn, hb⟩ := bind_ok.mp h
  exact ⟨n, known_ok hn, (pure_ok.mp hb).symm⟩

theorem bytes_keep_ok {t : Ty} {v w : Option UInt8} (h : bytes.keep t v = .ok w) :
    ∃ n, v = some n ∧ w = some n := by
  obtain ⟨n, hn, hw⟩ := bind_ok.mp h
  exact ⟨n, known_ok hn, (pure_ok.mp hw).symm⟩

end Domain

/-! ### Single instructions -/

variable {W C : Type} [CommRing W] [DecidableEq W] [Cell C] [Words W C]

/-- What is known about the code that runs, and how many words the stack may
have. -/
structure Loaded (W : Type) [CommRing W] (lines : List Line) (limit : Nat) : Prop where
  code : Room W (codeSize lines)
  stack : Room W (2 * limit)
  labels : (labels lines).Nodup

/-- A run within a function, with what it leaves in the machine. -/
structure Reaches (rom : Machine W C → Registers) (lines : List Line) (m : Machine W C) (pc sp : W)
    (ws : List (C × C)) (out : Output) (m' : Machine W C) : Prop where
  runs : m.Runs rom lines m'
  pc : m'.pc = pc
  ix : m'.ix = m.ix
  sp : m'.sp = sp
  holds : m'.Holds ws
  output : m'.output = out

variable {rom : Machine W C → Registers} {lines code : List Line} {limit : Nat}
  {m m' : Machine W C} {ws : List (C × C)}

theorem Reaches.trans {m₁ m₂ : Machine W C} {pc₁ pc sp₁ sp : W} {ws₁ : List (C × C)}
    {out₁ out : Output} (h₁ : Reaches rom lines m pc₁ sp₁ ws₁ out₁ m₁)
    (h₂ : Reaches rom lines m₁ pc sp ws out m₂) : Reaches rom lines m pc sp ws out m₂ :=
  { h₂ with runs := h₁.runs.trans h₂.runs, ix := h₂.ix.trans h₁.ix }

theorem Reaches.cast {pc pc' sp sp' : W} {out out' : Output}
    (h : Reaches rom lines m pc sp ws out m') (hpc : pc = pc') (hsp : sp = sp')
    (hout : out = out') : Reaches rom lines m pc' sp' ws out' m' := by
  rw [← hpc, ← hsp, ← hout]
  exact h

theorem Reaches.placed {pc sp : W} {out : Output} (h : Reaches rom lines m pc sp ws out m')
    (hplaced : Placed lines pc code) : Placed lines m'.pc code := by
  rw [h.pc]
  exact hplaced

namespace Machine

/-- An instruction that changes the registers only. -/
theorem reaches_registers (rom : Machine W C → Registers) (hload : Loaded W lines limit)
    {i : Instr} {r : Registers} (h : Placed lines m.pc (.instr i :: code)) (hws : m.Holds ws)
    (hexec : m.exec rom (labelFrom origin lines) i = some { m.advance i with registers := r }) :
    ∃ m', Reaches rom lines m (m.pc + (i.size : W)) m.sp ws m.output m' ∧ m'.registers = r :=
  ⟨_, ⟨.instr h hload.code hexec, rfl, rfl, rfl, hws, rfl⟩, rfl⟩

theorem reaches_jump (rom : Machine W C → Registers) (hload : Loaded W lines limit) {i : Instr}
    {w : W} (h : Placed lines m.pc (.instr i :: code)) (hws : m.Holds ws)
    (hexec : m.exec rom (labelFrom origin lines) i = some { m with pc := w }) :
    ∃ m', Reaches rom lines m w m.sp ws m.output m' ∧ m'.registers = m.registers :=
  ⟨_, ⟨.instr h hload.code hexec, rfl, rfl, rfl, hws, rfl⟩, rfl⟩

theorem reaches_pushAF (rom : Machine W C → Registers) (hload : Loaded W lines limit)
    (h : Placed lines m.pc (.instr .pushAF :: code)) (hws : m.Holds ws)
    (hlen : ws.length < limit) :
    ∃ m', Reaches rom lines m (m.pc + (Instr.pushAF.size : W)) (m.sp - 2)
      ((byte m.registers.a, byte m.registers.flags) :: ws) m.output m' :=
  ⟨_, .instr h hload.code rfl, rfl, rfl, rfl, Z80.Holds.push hws (hload.stack.mono (by omega))
    (byte m.registers.a, byte m.registers.flags), rfl⟩

theorem reaches_popBC (rom : Machine W C → Registers) (hload : Loaded W lines limit) {w : C × C}
    (h : Placed lines m.pc (.instr .popBC :: code)) (hws : m.Holds (w :: ws)) :
    ∃ m', Reaches rom lines m (m.pc + (Instr.popBC.size : W)) (m.sp + 2) ws m.output m' ∧
      m'.registers.a = m.registers.a ∧ m'.registers.b = value w.1 := by
  refine ⟨_, ⟨.instr h hload.code rfl, rfl, rfl, rfl, hws.2.2, rfl⟩, rfl, ?_⟩
  show value (m.memory (m.sp + 1)) = _
  rw [hws.2.1]

/-- Words are taken off the stack one by one. -/
theorem reaches_pops (rom : Machine W C → Registers) (hload : Loaded W lines limit)
    {ws₁ : List (C × C)} {n : Nat} (hn : ws₁.length = n)
    (h : Placed lines m.pc (List.replicate n (.instr .popBC) ++ code))
    (hws : m.Holds (ws₁ ++ ws)) :
    ∃ m', Reaches rom lines m (m.pc + (n : W)) (m.sp + ((2 * n : Nat) : W)) ws m.output m' ∧
      m'.registers.a = m.registers.a := by
  induction n generalizing m ws₁ with
  | zero =>
      obtain rfl := List.eq_nil_of_length_eq_zero hn
      exact ⟨m, ⟨.refl, by simp, rfl, by simp, hws, rfl⟩, rfl⟩
  | succ n ih =>
      obtain ⟨w, ws₁, rfl⟩ := List.exists_cons_of_length_eq_add_one hn
      rw [List.replicate_succ, List.cons_append] at h
      obtain ⟨m₁, h₁, ha₁, -⟩ := reaches_popBC rom hload h hws
      obtain ⟨m₂, h₂, ha₂⟩ := ih (by simpa using hn) (h₁.placed h.tail) h₁.holds
      refine ⟨m₂, h₁.trans (h₂.cast ?_ ?_ h₁.output), ha₂.trans ha₁⟩
      · rw [h₁.pc, Instr.size]
        push_cast
        ring
      · rw [h₁.sp]
        push_cast
        ring

end Machine

/-! ### Expressions -/

/-- The evaluation is one of bytes, and its calls run as it says: from the
instruction that calls, with the arguments on the stack, to behind it. -/
structure Served (rom : Machine W C → Registers) (lines : List Line) (limit reserve : Nat)
    (I : Interpreter (Option UInt8)) : Prop where
  domain : I.domain = .bytes
  call : ∀ {name args v out} {m : Machine W C} {words ws : List (C × C)} {code : List Line},
    I.call name args m.output = .ok (v, out) →
    Placed lines m.pc (.instr (.call (functionLabel name)) :: code) → Keeps args words →
    m.Holds (words.reverse ++ ws) → words.length + ws.length + reserve < limit →
    ∃ m' words', words'.length = words.length ∧
      Reaches rom lines m (m.pc + ((Instr.call (functionLabel name)).size : W)) m.sp
        (words' ++ ws) out m' ∧ Represents v m'.registers.a

theorem near_two (start : W) : near start (start + 2) = true := by
  refine List.any_eq_true.mpr ⟨130, by decide, ?_⟩
  rw [beq_iff_eq]
  push_cast
  ring

/-- Comparing leaves a truth value in `a`, whether it jumps or not. -/
theorem Comparison.simulates (hload : Loaded W lines limit) {c : Comparison} {g g' : Generator}
    {u : Unit} (h : c.lower.Emits g code u g') (hplaced : Placed lines m.pc code)
    (hws : m.Holds ws) :
    ∃ m', Reaches rom lines m (m.pc + (codeSize code : W)) m.sp ws m.output m' ∧
      m'.registers.a = truth (c.result (m.registers.b == m.registers.a)) := by
  obtain ⟨rfl, -⟩ := Comparison.emits h
  obtain ⟨m₁, h₁, hr₁⟩ := Machine.reaches_registers rom hload hplaced hws rfl
  obtain ⟨m₂, h₂, hr₂⟩ :=
    Machine.reaches_registers rom hload (h₁.placed hplaced.tail) h₁.holds rfl
  have hjump := h₂.placed (h₁.placed hplaced.tail).tail
  have hzero : m₂.registers.zero = (m.registers.a == m.registers.b) := by
    rw [hr₂]
    show m₁.registers.zero = _
    rw [hr₁]
    rfl
  have hpc₂ : m₂.pc = m.pc + 3 := by
    rw [h₂.pc, h₁.pc, Instr.size, Instr.size]
    push_cast
    ring
  -- Two bytes lie between the jump and its label, so that a short jump reaches it.
  have htarget := hjump.tail.tail.label hload.labels
  by_cases hsame : m.registers.b = m.registers.a
  · obtain ⟨m₃, h₃, hr₃⟩ := Machine.reaches_jump rom hload hjump h₂.holds
      (if_pos (by rw [hzero, beq_iff_eq, hsame]))
    obtain ⟨m₄, h₄, hr₄⟩ := Machine.reaches_registers rom hload (h₃.placed hjump.tail) h₃.holds rfl
    refine ⟨m₄, h₁.trans (h₂.trans (h₃.trans (h₄.cast ?_ ?_ ?_))), ?_⟩
    · rw [h₃.pc]
      show m₂.pc + _ + _ = _
      rw [hpc₂]
      simp only [codeSize_cons, codeSize_nil, Line.size, Instr.size]
      push_cast
      ring
    · rw [h₃.sp, h₂.sp, h₁.sp]
    · rw [h₃.output, h₂.output, h₁.output]
    · rw [hr₄, hsame, beq_self_eq_true]
      cases c <;> rfl
  · obtain ⟨m₃, h₃, hr₃⟩ := Machine.reaches_jump rom hload hjump h₂.holds (by
      show (if m₂.registers.zero then _ else _) = _
      rw [if_neg (by rw [hzero, beq_iff_eq]; exact fun heq => hsame heq.symm), htarget]
      exact if_pos (near_two _))
    refine ⟨m₃, h₁.trans (h₂.trans (h₃.cast ?_ ?_ ?_)), ?_⟩
    · rw [hpc₂]
      simp only [codeSize_cons, codeSize_nil, Line.size, Instr.size]
      push_cast
      ring
    · rw [h₂.sp, h₁.sp]
    · rw [h₂.output, h₁.output]
    · rw [hr₃, hr₂, beq_eq_false_iff_ne.mpr hsame]
      cases c <;> rfl

section

variable (rom : Machine W C → Registers) (lines : List Line) (limit reserve : Nat)
  (I : Interpreter (Option UInt8)) (vars : Vars (Option UInt8))

/-- The code of an expression leaves its value in `a` and the stack as it was. -/
def Expr.Simulated (e : Expr) : Prop :=
  ∀ ⦃g g' : Generator⦄ ⦃code : List Line⦄ ⦃u : Unit⦄, e.lower.Emits g code u g' →
    ∀ ⦃m : Machine W C⦄ ⦃ws : List (C × C)⦄, Placed lines m.pc code → Sees m g.frame vars ws →
    m.Holds ws → ws.length + code.length + reserve ≤ limit →
    ∀ ⦃v : Option UInt8⦄ ⦃out : Output⦄, e.eval I vars m.output = .ok (v, out) →
    ∃ m', Reaches rom lines m (m.pc + (codeSize code : W)) m.sp ws out m' ∧
      Represents v m'.registers.a

/-- The code of arguments pushes their values, so that the last one is on top. -/
def Expr.SimulatedAll (args : List Expr) : Prop :=
  ∀ ⦃g g' : Generator⦄ ⦃code : List Line⦄ ⦃u : Unit⦄, (lowerArguments args).Emits g code u g' →
    ∀ ⦃m : Machine W C⦄ ⦃ws : List (C × C)⦄, Placed lines m.pc code → Sees m g.frame vars ws →
    m.Holds ws → ws.length + code.length + reserve ≤ limit →
    ∀ ⦃vs : List (Option UInt8)⦄ ⦃out : Output⦄, evalAll I vars args m.output = .ok (vs, out) →
    ∃ m' words, words.length = args.length ∧ Keeps vs words ∧
      Reaches rom lines m (m.pc + (codeSize code : W)) (m.sp - ((2 * args.length : Nat) : W))
        (words.reverse ++ ws) out m'

end

namespace Expr

theorem lowerArguments_length {args : List Expr} {g g' : Generator} {u : Unit}
    (h : (lowerArguments args).Emits g code u g') : args.length ≤ code.length := by
  induction args generalizing g code with
  | nil => exact Nat.zero_le _
  | cons a args ih =>
      obtain ⟨c₁, g₁, c₂, -, hargs, rfl⟩ := emits_argument h
      have hlen := ih hargs
      simp only [List.length_cons, List.length_append]
      omega

variable {reserve : Nat} {I : Interpreter (Option UInt8)} {vars : Vars (Option UInt8)}
  {e l r : Expr} {args : List Expr} {p : Position}

theorem simulated_of_load (hload : Loaded W lines limit) {n : UInt8}
    (hlower : e.lower = instrs [.loadA n])
    (hvalue : ∀ out, e.eval I vars out = .ok (some n, out)) :
    e.Simulated rom lines limit reserve I vars := by
  intro g g' code u h m ws hplaced hsees hws hroom v out heval
  rw [hlower] at h
  obtain ⟨rfl, -⟩ := instrs_emits.mp h
  rw [hvalue] at heval
  cases heval
  obtain ⟨m', h', hr⟩ := Machine.reaches_registers rom hload hplaced hws rfl
  refine ⟨m', h'.cast (by simp [codeSize, Line.size]) rfl rfl, fun b hb => ?_⟩
  rw [hr]
  exact Option.some.inj hb

theorem simulated_var (hload : Loaded W lines limit) (x : String) :
    (var x p).Simulated rom lines limit reserve I vars := by
  intro g g' code u h m ws hplaced hsees hws hroom v out heval
  obtain ⟨d, hd, rfl, -⟩ := emits_var h
  obtain ⟨a, ha, rfl, rfl⟩ := eval_var_ok heval
  obtain ⟨hreach, j, w, hj, haddress, hvalue⟩ := hsees x a d ha hd
  have hfetch : m.memory (m.ix + (d : W)) = w.1 := by
    rw [haddress, Z80.Holds.get hws hj]
  obtain ⟨m', h', hr⟩ := Machine.reaches_registers rom hload hplaced hws (if_pos hreach)
  refine ⟨m', h'.cast (by simp [codeSize, Line.size]) rfl rfl, ?_⟩
  rw [hr, hfetch]
  exact hvalue

theorem Simulated.negate (hload : Loaded W lines limit) (hI : Served rom lines limit reserve I)
    (he : e.Simulated rom lines limit reserve I vars) :
    (negate e p).Simulated rom lines limit reserve I vars := by
  intro g g' code u h m ws hplaced hsees hws hroom v out heval
  obtain ⟨c, hlower, rfl⟩ := emits_negate h
  obtain ⟨w, heval₁, hnegate⟩ := eval_negate_ok heval
  rw [hI.domain] at hnegate
  obtain ⟨n, rfl, rfl⟩ := Domain.bytes_negate_ok hnegate
  rw [List.length_append] at hroom
  obtain ⟨m₁, h₁, ha₁⟩ := he hlower hplaced.left hsees hws (by omega) heval₁
  obtain ⟨m₂, h₂, hr₂⟩ :=
    Machine.reaches_registers rom hload (h₁.placed hplaced.right) h₁.holds rfl
  refine ⟨m₂, h₁.trans (h₂.cast ?_ h₁.sp h₁.output), ?_⟩
  · rw [h₁.pc]
    simp only [codeSize_append, codeSize_cons, codeSize_nil, Line.size, Instr.size]
    push_cast
    ring
  · rw [hr₂, ← ha₁ n rfl]
    exact fun b hb => Option.some.inj hb

/-- The operands of an operator: the left one waits on the stack for the right
one. -/
theorem Simulated.operands (hload : Loaded W lines limit)
    (hl : l.Simulated rom lines limit reserve I vars)
    (hr : r.Simulated rom lines limit reserve I vars) {g g₁ g' : Generator}
    {c₁ c₂ : List Line} (hlower₁ : l.lower.Emits g c₁ () g₁) (hlower₂ : r.lower.Emits g₁ c₂ () g')
    (hplaced : Placed lines m.pc (c₁ ++ .instr .pushAF :: (c₂ ++ .instr .popBC :: code)))
    (hsees : Sees m g.frame vars ws) (hws : m.Holds ws)
    (hroom : ws.length + (c₁.length + c₂.length + 1) + reserve ≤ limit) {n k : UInt8}
    {out₁ out₂ : Output} (heval₁ : l.eval I vars m.output = .ok (some n, out₁))
    (heval₂ : r.eval I vars out₁ = .ok (some k, out₂)) :
    ∃ m', Reaches rom lines m (m.pc + ((codeSize c₁ + codeSize c₂ + 2 : Nat) : W)) m.sp ws out₂ m' ∧
      Placed lines m'.pc code ∧ m'.registers.b = n ∧ m'.registers.a = k := by
  obtain ⟨m₁, h₁, ha₁⟩ := hl hlower₁ hplaced.left hsees hws (by omega) heval₁
  have hpush := h₁.placed hplaced.right
  obtain ⟨m₂, h₂⟩ := Machine.reaches_pushAF rom hload hpush h₁.holds (by omega)
  have hright := h₂.placed hpush.tail
  -- The variables are one word deeper now, but as far from the frame pointer as before.
  have hsees₂ := (hsees.of_eq h₁.ix h₁.sp).push h₂.ix h₂.sp
    (byte m₁.registers.a, byte m₁.registers.flags)
  rw [← lower_frame l hlower₁] at hsees₂
  rw [← h₁.output, ← h₂.output] at heval₂
  obtain ⟨m₃, h₃, ha₃⟩ := hr hlower₂ hright.left hsees₂ h₂.holds
    (by simp only [List.length_cons]; omega) heval₂
  have hpop := h₃.placed hright.right
  obtain ⟨m₄, h₄, ha₄, hb₄⟩ := Machine.reaches_popBC rom hload hpop h₃.holds
  refine ⟨m₄, h₁.trans (h₂.trans (h₃.trans (h₄.cast ?_ ?_ h₃.output))), h₄.placed hpop.tail, ?_,
    ha₄.trans (ha₃ k rfl)⟩
  · rw [h₃.pc, h₂.pc, h₁.pc]
    simp only [Instr.size]
    push_cast
    ring
  · rw [h₃.sp, h₂.sp, h₁.sp]
    ring
  · rw [hb₄, Cell.value_byte, ha₁ n rfl]

theorem Simulated.add (hload : Loaded W lines limit) (hI : Served rom lines limit reserve I)
    (hl : l.Simulated rom lines limit reserve I vars)
    (hr : r.Simulated rom lines limit reserve I vars) :
    (add l r p).Simulated rom lines limit reserve I vars := by
  intro g g' code u h m ws hplaced hsees hws hroom v out heval
  obtain ⟨c₁, g₁, c₂, hlower₁, hlower₂, rfl⟩ := emits_add h
  obtain ⟨w, out₁, z, heval₁, heval₂, hadd⟩ := eval_add_ok heval
  rw [hI.domain] at hadd
  obtain ⟨n, k, rfl, rfl, rfl⟩ := Domain.bytes_add_ok hadd
  simp only [List.length_append, List.length_cons] at hroom
  obtain ⟨m₁, h₁, hplaced₁, hb₁, ha₁⟩ := Simulated.operands hload hl hr hlower₁ hlower₂ hplaced
    hsees hws (by omega) heval₁ heval₂
  obtain ⟨m₂, h₂, hr₂⟩ := Machine.reaches_registers rom hload hplaced₁ h₁.holds rfl
  refine ⟨m₂, h₁.trans (h₂.cast ?_ h₁.sp h₁.output), ?_⟩
  · rw [h₁.pc]
    simp only [codeSize_append, codeSize_cons, codeSize_nil, Line.size, Instr.size]
    push_cast
    ring
  · rw [hr₂]
    intro b hb
    show m₁.registers.a + m₁.registers.b = b
    rw [ha₁, hb₁, UInt8.add_comm]
    exact Option.some.inj hb

theorem Simulated.compare (hload : Loaded W lines limit) (hI : Served rom lines limit reserve I)
    {c : Comparison} (hl : l.Simulated rom lines limit reserve I vars)
    (hr : r.Simulated rom lines limit reserve I vars) :
    (compare c l r p).Simulated rom lines limit reserve I vars := by
  intro g g' code u h m ws hplaced hsees hws hroom v out heval
  obtain ⟨c₁, g₁, c₂, g₂, c₃, hlower₁, hlower₂, hlower₃, rfl⟩ := emits_compare h
  obtain ⟨w, out₁, z, heval₁, heval₂, hcompare⟩ := eval_compare_ok heval
  rw [hI.domain] at hcompare
  obtain ⟨n, k, rfl, rfl, rfl⟩ := Domain.bytes_compare_ok hcompare
  simp only [List.length_append, List.length_cons] at hroom
  obtain ⟨m₁, h₁, hplaced₁, hb₁, ha₁⟩ := Simulated.operands hload hl hr hlower₁ hlower₂ hplaced
    hsees hws (by omega) heval₁ heval₂
  obtain ⟨m₂, h₂, ha₂⟩ := Comparison.simulates hload hlower₃ hplaced₁ h₁.holds
  refine ⟨m₂, h₁.trans (h₂.cast ?_ h₁.sp h₁.output), ?_⟩
  · rw [h₁.pc]
    simp only [codeSize_append, codeSize_cons, Line.size, Instr.size]
    push_cast
    ring
  · rw [ha₂, hb₁, ha₁]
    exact fun b hb => Option.some.inj hb

theorem SimulatedAll.call (hload : Loaded W lines limit) (hI : Served rom lines limit reserve I)
    {f : String} (hargs : SimulatedAll rom lines limit reserve I vars args) :
    (call f args p).Simulated rom lines limit reserve I vars := by
  intro g g' code u h m ws hplaced hsees hws hroom v out heval
  obtain ⟨c, hlower, rfl⟩ := emits_call h
  obtain ⟨vs, out₁, hevalAll, hcall⟩ := eval_call_ok heval
  simp only [List.length_append, List.length_cons, List.length_replicate] at hroom
  have hlen := lowerArguments_length hlower
  obtain ⟨m₁, words, hwords, hkeeps, h₁⟩ :=
    hargs hlower hplaced.left hsees hws (by omega) hevalAll
  have hplaced₁ := h₁.placed hplaced.right
  rw [← h₁.output] at hcall
  obtain ⟨m₂, words₂, hwords₂, h₂, ha₂⟩ :=
    hI.call hcall hplaced₁ hkeeps h₁.holds (by omega)
  -- The function may have assigned to its parameters, so other words are popped than were pushed.
  have hpops : Placed lines m₂.pc (List.replicate args.length (.instr .popBC) ++ []) := by
    rw [List.append_nil]
    exact h₂.placed hplaced₁.tail
  obtain ⟨m₃, h₃, ha₃⟩ :=
    Machine.reaches_pops rom hload (hwords₂.trans hwords) hpops h₂.holds
  refine ⟨m₃, h₁.trans (h₂.trans (h₃.cast ?_ ?_ h₂.output)), ?_⟩
  · rw [h₂.pc, h₁.pc]
    rw [codeSize_append, codeSize_cons, codeSize_pops, Line.size]
    push_cast
    ring
  · rw [h₂.sp, h₁.sp]
    ring
  · rw [ha₃]
    exact ha₂

theorem SimulatedAll.cons (hload : Loaded W lines limit)
    (he : e.Simulated rom lines limit reserve I vars)
    (hargs : SimulatedAll rom lines limit reserve I vars args) :
    SimulatedAll rom lines limit reserve I vars (e :: args) := by
  intro g g' code u h m ws hplaced hsees hws hroom vs out heval
  obtain ⟨c₁, g₁, c₂, hlower₁, hlower₂, rfl⟩ := emits_argument h
  obtain ⟨v, out₁, vs₁, heval₁, heval₂, rfl⟩ := evalAll_cons_ok heval
  simp only [List.length_append, List.length_cons] at hroom
  obtain ⟨m₁, h₁, ha₁⟩ := he hlower₁ hplaced.left hsees hws (by omega) heval₁
  have hpush := h₁.placed hplaced.right
  obtain ⟨m₂, h₂⟩ := Machine.reaches_pushAF rom hload hpush h₁.holds (by omega)
  have hsees₂ := (hsees.of_eq h₁.ix h₁.sp).push h₂.ix h₂.sp
    (byte m₁.registers.a, byte m₁.registers.flags)
  rw [← lower_frame e hlower₁] at hsees₂
  rw [← h₁.output, ← h₂.output] at heval₂
  obtain ⟨m₃, words, hwords, hkeeps, h₃⟩ := hargs hlower₂ (h₂.placed hpush.tail) hsees₂ h₂.holds
    (by simp only [List.length_cons]; omega) heval₂
  refine ⟨m₃, (byte m₁.registers.a, byte m₁.registers.flags) :: words, congrArg _ hwords, ?_,
    h₁.trans (h₂.trans ?_)⟩
  · refine .cons ?_ hkeeps
    rw [Cell.value_byte]
    exact ha₁
  · rw [List.reverse_cons, List.append_assoc, List.singleton_append]
    refine h₃.cast ?_ ?_ rfl
    · rw [h₂.pc, h₁.pc]
      simp only [codeSize_append, codeSize_cons, Line.size]
      push_cast
      ring
    · rw [h₂.sp, h₁.sp, List.length_cons]
      push_cast
      ring

mutual

theorem simulated (hload : Loaded W lines limit) (hI : Served rom lines limit reserve I) :
    (e : Expr) → e.Simulated rom lines limit reserve I vars
  | number n _ => simulated_of_load hload rfl fun out => by
      rw [eval, hI.domain]
      rfl
  | boolean b _ => simulated_of_load hload rfl fun out => by
      rw [eval, hI.domain]
      rfl
  | var x _ => simulated_var hload x
  | .negate e _ => (simulated hload hI e).negate hload hI
  | .add l r _ => (simulated hload hI l).add hload hI (simulated hload hI r)
  | .compare _ l r _ => (simulated hload hI l).compare hload hI (simulated hload hI r)
  | .call _ args _ => SimulatedAll.call hload hI (simulatedAll hload hI args)

theorem simulatedAll (hload : Loaded W lines limit) (hI : Served rom lines limit reserve I) :
    (args : List Expr) → SimulatedAll rom lines limit reserve I vars args
  | [] => by
      intro g g' code u h m ws hplaced hsees hws hroom v out heval
      obtain ⟨rfl, -, -⟩ := pure_emits.mp h
      cases heval
      exact ⟨m, [], rfl, .nil, .refl, by simp, rfl, by simp, hws, rfl⟩
  | e :: args => SimulatedAll.cons hload (simulated hload hI e) (simulatedAll hload hI args)

end

end Expr

end Octet
