import Octet.Proofs.Lowering.Execution
import Octet.Proofs.Lowering.Labels
import Octet.Proofs.Typing.Decision

/-!
Compiled programs do what their evaluation says. A call enters the code of its
function with the arguments as parameters, runs the body, and is back behind
the call with the parameters still on the stack; this is shown by induction on
how deep calls may go, with stack for one more function in each step. Then a
program runs from its label `start` to the address on top of the stack, and
prints what its evaluation prints.

There are two machines to run on. The one with integers for words has room for
every evaluation that ends. The one with words of 16 bits has it as long as the
code and the stack stay within its addresses.
-/

namespace Octet

open Z80 Gen

variable {W C : Type} [CommRing W] [DecidableEq W] [Cell C] [Words W C]
  {rom : Machine W C → Registers} {lines code : List Line} {limit : Nat} {m : Machine W C}

/-! ### Calls -/

omit [CommRing W] [DecidableEq W] [Words W C] in
/-- The parameters are bound in the order in which the arguments lie on the
stack, the last one first. -/
theorem Function.bindParameters_keeps : (ps : List Parameter) → {vs : List (Option UInt8)} →
    {scope scope' : Locals (Option UInt8)} →
    bindParameters .bytes ps vs scope = .ok scope' → {words words₀ : List (C × C)} →
    Keeps vs words → Keeps (scope.map Var.value) words₀ →
    scope'.map Var.name = (ps.map Parameter.name).reverse ++ scope.map Var.name ∧
      Keeps (scope'.map Var.value) (words.reverse ++ words₀)
  | [], [], scope, scope', h, _, words₀, .nil, hscope => by
      obtain rfl : scope = scope' := by simpa [bindParameters] using h
      exact ⟨rfl, hscope⟩
  | p :: ps, v :: vs, scope, scope', h, w :: words, words₀, .cons hw hwords, hscope => by
      rw [bindParameters] at h
      obtain ⟨v', hkeep, hrest⟩ := Result.bind_ok.mp h
      obtain ⟨n, rfl, rfl⟩ := Domain.bytes_keep_ok hkeep
      obtain ⟨hnames, hvalues⟩ := bindParameters_keeps ps hrest hwords (.cons hw hscope)
      refine ⟨?_, ?_⟩
      · rw [hnames, List.map_cons, List.map_cons, List.reverse_cons, List.append_assoc]
        rfl
      · rw [List.reverse_cons, List.append_assoc]
        exact hvalues
  | [], _ :: _, _, _, h, _, _, _, _ => by cases h
  | _ :: _, [], _, _, h, _, _, _, _ => by cases h

/-- A call leads into the code of a function, with a frame of its own. -/
theorem Machine.runs_call (rom : Machine W C → Registers) (hload : Loaded W lines limit)
    {l : String} {w : W} {ws : List (C × C)} {body : List Line}
    (hcall : Placed lines m.pc (.instr (.call l) :: code))
    (hfunction : Placed lines w (.label l :: .instr .pushIX :: .instr .clearIX ::
      .instr .addIXSP :: body))
    (hws : m.Holds ws) (hlen : ws.length + 1 < limit) :
    ∃ m', m.Runs rom lines m' ∧ Placed lines m'.pc body ∧ m'.ix = m.sp - 4 ∧ m'.sp = m.sp - 4 ∧
      m'.Holds (cells m.ix :: cells (m.pc + ((Instr.call l).size : W)) :: ws) ∧
      m'.output = m.output := by
  let ret := m.pc + ((Instr.call l).size : W)
  have hexec : m.exec rom (labelFrom origin lines) (.call l) =
      some { (m.advance (.call l)).push (high ret) (low ret) with pc := w } := by
    show Option.map _ _ = _
    rw [hfunction.label hload.labels]
    rfl
  have hpush : Placed lines w (.instr .pushIX :: .instr .clearIX :: .instr .addIXSP :: body) := by
    simpa [Line.size] using hfunction.tail
  have hruns : m.Runs rom lines _ := (Machine.Runs.instr hcall hload.code hexec).trans
    ((Machine.Runs.instr hpush hload.code rfl).trans
      ((Machine.Runs.instr hpush.tail hload.code rfl).trans
        (Machine.Runs.instr hpush.tail.tail hload.code rfl)))
  have hret : Z80.Holds (Function.update (Function.update m.memory (m.sp - 1) (high ret))
      (m.sp - 2) (low ret)) (m.sp - 2) (cells ret :: ws) :=
    Z80.Holds.push hws (hload.stack.mono (by omega)) (cells ret)
  have hsaved := hret.push (hload.stack.mono (by simp only [List.length_cons]; omega)) (cells m.ix)
  refine ⟨_, hruns, hpush.tail.tail.tail, ?_, ?_, hsaved, rfl⟩
  · show 0 + (m.sp - 2 - 2) = _
    ring
  · show m.sp - 2 - 2 = _
    ring

/-- The function has its code in the lines. -/
def Function.Coded (W : Type) [CommRing W] (lines : List Line) (f : Function) : Prop :=
  ∃ g g' code, f.lower.Emits g code () g' ∧ ∃ w : W, Placed lines w code

omit [DecidableEq W] in
theorem Function.coded_of_mem : (fs : List Function) → {g g' : Generator} → {code : List Line} →
    {u : Unit} → (lowerAll fs).Emits g code u g' → {w : W} → Placed lines w code →
    ∀ f ∈ fs, f.Coded W lines
  | [], _, _, _, _, _, _, _ => by simp
  | f :: fs, g, g', code, u, h, w, hplaced => by
      obtain ⟨c₁, g₁, c₂, hf, hfs, rfl⟩ := emits_cons h
      have hplaced := hplaced.tail
      rw [List.forall_mem_cons]
      exact ⟨⟨g, g₁, c₁, hf, _, hplaced.left⟩, coded_of_mem fs hfs hplaced.right⟩

/-- A function that has its code is run by calling it. -/
theorem Function.Coded.simulates {f : Function} (hcoded : f.Coded W lines)
    (hshaped : f.Shaped) (hload : Loaded W lines limit) {reserve : Nat}
    {I : Interpreter (Option UInt8)} (hI : Served rom lines limit reserve I)
    {args : List (Option UInt8)} {v : Option UInt8} {out : Output} {words ws : List (C × C)}
    (hrun : f.run I args m.output = .ok (v, out))
    (hcall : Placed lines m.pc (.instr (.call (functionLabel f.name)) :: code))
    (hargs : Keeps args words) (hholds : m.Holds (words.reverse ++ ws))
    (hroom : words.length + ws.length + (lines.length + reserve) < limit) :
    ∃ m' words', words'.length = words.length ∧
      Reaches rom lines m (m.pc + ((Instr.call (functionLabel f.name)).size : W)) m.sp
        (words' ++ ws) out m' ∧ Represents v m'.registers.a := by
  obtain ⟨g, g', c, hlower, w, hplaced⟩ := hcoded
  have hlength := hplaced.length_le
  obtain ⟨frame, body, henter, hbody, rfl⟩ := f.emits hlower
  simp only [List.length_cons, List.length_append] at hlength
  obtain ⟨scope, hbind, hexec⟩ := Result.bind_ok.mp hrun
  rw [hI.domain] at hbind
  obtain ⟨hnames, hvalues⟩ := bindParameters_keeps f.parameters hbind hargs .nil
  obtain ⟨hlaid, hlocals⟩ := Frame.laid_enter henter
  obtain ⟨m₁, hruns, hplaced₁, hix, hsp, hholds₁, hout⟩ :=
    Machine.runs_call rom hload hcall hplaced hholds
      (by rw [List.length_append, List.length_reverse]; omega)
  -- The arguments are the caller's to take off, and the function's to assign to.
  let k : Caller W C :=
    ⟨m.ix, m.pc + ((Instr.call (functionLabel f.name)).size : W), words.length, ws⟩
  have hactive : Active k m₁ frame [scope] := by
    refine ⟨[], words.reverse, List.length_reverse .., ?_, ?_, ?_, ?_, ?_⟩
    · exact hholds₁
    · rw [hix, hsp]
      simp
    · exact hlocals.symm
    · simpa using hvalues
    · have hscope : [scope].flatten.map Var.name = (f.parameters.map Parameter.name).reverse := by
        simpa using hnames
      rw [hscope]
      exact hlaid
  obtain ⟨⟨signal, vars', out'⟩, hstmt, hfinal⟩ := Result.bind_ok.mp hexec
  rw [← hout] at hstmt
  have hconcludes := Stmt.simulated hload hI f.body.toStmt hshaped.body hbody hplaced₁.left hactive
    (by rw [hlocals, Caller.size]; show 0 + (words.length + ws.length + 2) + _ + _ ≤ _; omega) hstmt
  obtain ⟨m₂, hreturns⟩ : ∃ m₂, Returns rom lines k m₁ v out m₂ := by
    cases signal with
    | returned v' =>
        obtain ⟨m₂, hreturns⟩ := hconcludes
        obtain ⟨v'', hkeep, hdone⟩ := Result.bind_ok.mp hfinal
        rw [hI.domain] at hkeep
        obtain ⟨n, rfl, rfl⟩ := Domain.bytes_keep_ok hkeep
        obtain ⟨rfl, rfl⟩ := Prod.mk.inj (Result.pure_ok.mp hdone)
        exact ⟨m₂, hreturns⟩
    | next =>
        -- The body has come to its end, and whatever is in `a` stands for no value.
        obtain ⟨m₂, h₂⟩ := hconcludes
        obtain ⟨hv, rfl⟩ := Prod.mk.inj (Result.pure_ok.mp hfinal)
        rw [hI.domain] at hv
        have hunknown : Represents v m₂.registers.a := by
          rw [← hv]
          rintro b ⟨⟩
        obtain ⟨m₃, h₃⟩ := h₂.active.leaves hload (h₂.placed hplaced₁.right) hunknown
        rw [h₂.output] at h₃
        exact ⟨m₃, { h₃ with runs := h₂.runs.trans h₃.runs, sp := by rw [h₃.sp, h₂.ix] }⟩
  obtain ⟨words', hlength', hholds'⟩ := hreturns.holds
  refine ⟨m₂, words', hlength', ⟨hruns.trans hreturns.runs, hreturns.pc, hreturns.ix, ?_, hholds',
    hreturns.output⟩, hreturns.value⟩
  rw [hreturns.sp, hix]
  ring

namespace Program

variable {p : Program}

theorem function?_some {name : String} {f : Function} (h : p.function? name = some f) :
    f ∈ p.functions ∧ f.name = name :=
  ⟨List.mem_of_find?_eq_some h, by simpa using List.find?_some h⟩

/-- Calls run as deep as the evaluation goes, each with as many words as there
are lines. -/
theorem served (rom : Machine W C → Registers) (hload : Loaded W lines limit) (hshaped : p.Shaped)
    (hcoded : ∀ f ∈ p.functions, f.Coded W lines) (depth : Nat) :
    Served rom lines limit (depth * lines.length) (p.interpreter .bytes depth) := by
  induction depth with
  | zero => exact ⟨rfl, fun h => by cases h⟩
  | succ depth ih =>
      refine ⟨rfl, ?_⟩
      intro name args v out m words ws code hcall hplaced hargs hholds hroom
      have hcall : interpreter.call .bytes p (depth + 1) name args m.output = .ok (v, out) := hcall
      rw [interpreter.call] at hcall
      cases hfunction : p.function? name with
      | none =>
          rw [hfunction] at hcall
          cases hcall
      | some f =>
          rw [hfunction] at hcall
          obtain ⟨hmem, rfl⟩ := function?_some hfunction
          rw [Nat.add_mul, Nat.one_mul] at hroom
          exact (hcoded f hmem).simulates (hshaped f hmem) hload ih hcall hplaced hargs hholds
            (by omega)

end Program

/-! ### Programs -/

theorem Machine.runs_ret (rom : Machine W C → Registers) (hload : Loaded W lines limit) {w : C × C}
    {ws : List (C × C)} (h : Placed lines m.pc (.instr .ret :: code)) (hws : m.Holds (w :: ws)) :
    ∃ m', m.Runs rom lines m' ∧ m'.pc = word w.1 w.2 ∧ m'.sp = m.sp + 2 ∧ m'.ix = m.ix ∧
      m'.output = m.output := by
  refine ⟨_, .instr h hload.code rfl, ?_, rfl, rfl, rfl⟩
  show word (m.memory (m.sp + 1)) (m.memory m.sp) = _
  rw [hws.1, hws.2.1]

/-- The lines are a program that prints the output: from the label `start` it
runs to the address on top of the stack, which it takes off, and the frame
pointer is what it was. The lines are no part of the memory, so that nothing
which the program writes changes its code. -/
def Prints (W : Type) {C : Type} [CommRing W] [DecidableEq W] [Words W C] [Cell C]
    (lines : List Line) (out : Output) : Prop :=
  ∃ entry : W, labelFrom origin lines "start" = some entry ∧
    ∀ (rom : Machine W C → Registers) (m : Machine W C), m.pc = entry → m.output = [] →
      ∃ m', m.Runs rom lines m' ∧ m'.pc = m.top ∧ m'.sp = m.drop.sp ∧ m'.ix = m.ix ∧
        m'.output = out

namespace Program

variable {p : Program}

theorem prints (hshaped : p.Shaped) {snapshot : Option String}
    (hlines : p.assemblyLines snapshot = .ok lines) {depth : Nat}
    (hload : Loaded W lines (depth * lines.length + 2)) {out : Output}
    (heval : p.evaluate .bytes depth = .ok out) : Prints W lines out := by
  obtain ⟨g', hemits⟩ := assemblyLines_ok hlines
  obtain ⟨-, c, hfunctions, hcode⟩ := emits hemits
  have hplaced : Placed lines (origin + (codeSize (header snapshot) : W))
      (p.start ++ (c ++ trailer snapshot)) := ⟨header snapshot, [], by rw [hcode]; simp, rfl⟩
  have hserved (rom : Machine W C → Registers) := served rom hload hshaped
    (Function.coded_of_mem p.functions hfunctions hplaced.right.left) depth
  refine ⟨_, hplaced.label hload.labels, fun rom m hpc hout => ?_⟩
  have hws : m.Holds [(m.memory (m.sp + 1), m.memory m.sp)] := ⟨rfl, rfl, trivial⟩
  rw [← hpc] at hplaced
  have hbody : Placed lines m.pc ((if p.main?.isSome then
      [.instr (.call (functionLabel "main"))] else []) ++ [.instr .ret]) := by
    simpa [Line.size] using hplaced.left.tail
  unfold evaluate at heval
  cases hmain : p.main? with
  | none =>
      rw [hmain] at heval hbody
      cases heval
      obtain ⟨m', hruns, hpc', hsp, hix, hout'⟩ := Machine.runs_ret rom hload hbody hws
      exact ⟨m', hruns, hpc', hsp, hix, hout'.trans hout⟩
  | some main =>
      rw [hmain] at heval hbody
      obtain ⟨⟨v, out'⟩, hcall, hdone⟩ := Result.bind_ok.mp heval
      obtain rfl : out' = out := Result.pure_ok.mp hdone
      rw [← hout] at hcall
      obtain ⟨m₁, words, hwords, h₁, -⟩ := (hserved rom).call hcall hbody .nil hws
        (by simp only [List.length_nil, List.length_singleton]; omega)
      obtain rfl := List.eq_nil_of_length_eq_zero hwords
      obtain ⟨m', hruns, hpc', hsp, hix, hout'⟩ :=
        Machine.runs_ret rom hload (h₁.placed hbody.tail) h₁.holds
      exact ⟨m', h₁.runs.trans hruns, hpc', by rw [hsp, h₁.sp]; rfl, hix.trans h₁.ix,
        hout'.trans h₁.output⟩

/-- Compiling preserves the meaning of programs. The text of a checked program
is read back as lines, and running them prints what evaluating the program
prints, whatever the routine that prints leaves in the registers. With 16-bit
words this takes a program that fits into the memory and calls that do not go
too deep for the stack. It also takes code that lies outside of the memory that
is written to: the machine keeps the two apart. -/
theorem assembly_prints {tokens : List Token} (hread : Program.ofTokens tokens = .ok p)
    (hcheck : p.typeCheck = .ok ()) (hnames : ∀ f ∈ p.functions, IsWord f.name)
    {snapshot : Option String} (hsnapshot : ∀ name, snapshot = some name → '\n' ∉ name.toList)
    {text : String} (htext : p.assembly snapshot = .ok text) {depth : Nat} {out : Output}
    (heval : p.evaluate .bytes depth = .ok out) :
    ∃ lines, lines? text = some lines ∧ Prints ℤ lines out ∧
      (codeSize lines ≤ 65536 → 2 * (depth * lines.length + 2) ≤ 65536 →
        Prints (BitVec 16) lines out) := by
  have hshaped := ofTokens_shaped hread
  have htyped := hshaped.typeCheck_iff.mp hcheck
  obtain ⟨lines, hlines, rfl⟩ := assembly_ok.mp htext
  obtain ⟨hlabels, hlegible⟩ := lines_tidy htyped hnames hsnapshot hlines
  refine ⟨lines, lines?_join hlegible, ?_, fun hsize hdepth => ?_⟩
  · exact prints hshaped hlines ⟨room_int _, room_int _, hlabels⟩ heval
  · exact prints hshaped hlines ⟨room_bitVec hsize, room_bitVec hdepth, hlabels⟩ heval

/-- A variable hides a parameter, and the function returns from inside of a
block. -/
theorem assembly_prints_recursive : ∃ tokens p text lines, Program.ofTokens tokens = .ok p ∧
    p.typeCheck = .ok () ∧ p.assembly (some "demo") = .ok text ∧
    p.evaluate .bytes 6 = .ok [254, 5] ∧ lines? text = some lines ∧ Prints ℤ lines [254, 5] ∧
    Prints (BitVec 16) lines [254, 5] := by
  obtain ⟨p, hread, hcheck, htest⟩ := checked_of_test ((Token.scan
    "def f(a: u8, b: u8) -> u8:
    if a == b:
        let a: u8 = 250
        print(a + 4)
        return b + 2
    return f(a + 1, b)
def main() -> void:
    print(f(0, 3))
").toOption.getD [])
    (fun p => p.functions.all (fun f => f.name.toList.all fun c => c != ' ' && c != '\n') &&
      (p.evaluate .bytes 6).toOption == some [254, 5] &&
      (p.assemblyLines (some "demo")).toOption.any fun lines =>
        Nat.ble (codeSize lines) 200 && Nat.ble lines.length 200)
    (by decide +kernel)
  simp only [Bool.and_eq_true, beq_iff_eq, Option.any_eq_true, Nat.ble_eq] at htest
  obtain ⟨⟨hall, hout⟩, lines, hoption, hsize, hlength⟩ := htest
  have hwords : ∀ f ∈ p.functions, IsWord f.name :=
    fun f hf => isWord_of_all (List.all_eq_true.mp hall f hf)
  have heval := Result.ok_of_toOption hout
  have hlines := Result.ok_of_toOption hoption
  have htext := assembly_ok.mpr ⟨lines, hlines, rfl⟩
  have hname : ∀ name, some "demo" = some name → '\n' ∉ name.toList := by
    rintro _ ⟨⟩
    decide
  obtain ⟨lines', hread', hints, hwords16⟩ :=
    assembly_prints hread hcheck hwords hname htext heval
  obtain rfl : lines = lines' := by
    have htyped := (ofTokens_shaped hread).typeCheck_iff.mp hcheck
    have hlegible := (lines_tidy htyped hwords hname hlines).2
    exact Option.some.inj ((lines?_join hlegible).symm.trans hread')
  exact ⟨_, p, _, lines, hread, hcheck, htext, heval, hread', hints,
    hwords16 (by omega) (by omega)⟩

end Program

end Octet
