import Octet.Compile
import Octet.Proofs.Shell.FileTree
import Octet.Shell.Command

/-!
How a command line ends. It succeeds just when it names a source file that may
be read, with a text that has an assembly text, and this can be delivered:
printed, or written to the path that the second argument is. Whatever else
happens leaves the files as they were, and an error in the source is reported on
the output.

There are four ways through a run, and each of them has its lemma: arguments
that make no command, a source file that cannot be read, a source text that
cannot be compiled, and an assembly text that is delivered.
-/

namespace Octet.Command

variable {arguments : List String} {t : FileTree} {source text : String} {target : Option String}

/-- The stages of a command are those of `compile`. -/
theorem translate_eq_compile (text : String) (snapshot : Option String) :
    translate text snapshot = compile text snapshot := by
  simp only [translate, compile, Program.ofSource, bind_assoc]

/-! ### The ways through a run -/

theorem run_read (path : String) : (FileTree.files.read path).run t = pure (t.read path, t) := rfl

theorem run_write_ok {path : String} {after : FileTree} (h : t.write path text = .ok after) :
    (FileTree.files.write path text).run t = pure (.ok (), after) := by
  simp only [FileTree.files, StateT.run_modifyGet, h]

theorem run_write_error {path : String} {e : FileError} (h : t.write path text = .error e) :
    (FileTree.files.write path text).run t = pure (.error e, t) := by
  simp only [FileTree.files, StateT.run_modifyGet, h]

theorem ofArguments_ok {c : Command} :
    ofArguments arguments = .ok c ↔ arguments = c.source :: c.target.toList := by
  obtain ⟨source, target⟩ := c
  constructor
  · intro h
    unfold ofArguments at h
    split at h
    · cases h
      rfl
    · cases h
      rfl
    · cases h
  · rintro rfl
    cases target <;> rfl

/-- Arguments that make no command. -/
theorem runOn_of_no_command (h : ∀ source target, arguments ≠ source :: Option.toList target) :
    runOn t arguments = (⟨2, "", "Usage: zxc <source> [output]\n"⟩, t) := by
  match arguments, h with
  | [], _ => rfl
  | [source], h => exact absurd rfl (h source none)
  | [source, target], h => exact absurd rfl (h source (some target))
  | _ :: _ :: _ :: _, _ => rfl

/-- A source file that gives no assembly text. -/
theorem runOn_of_failure {exit : Exit} (harguments : arguments = source :: target.toList)
    (h : assembly ⟨source, target⟩ (t.read source) = .error exit) :
    runOn t arguments = (exit, t) := by
  have hcommand : ofArguments arguments = .ok ⟨source, target⟩ := ofArguments_ok.mpr harguments
  simp only [runOn, run, hcommand, StateT.run_bind, run_read, pure_bind, h]
  rfl

/-- A source file that cannot be read. -/
theorem runOn_of_unreadable {e : FileError} (harguments : arguments = source :: target.toList)
    (hread : t.read source = .error e) : runOn t arguments =
      (⟨1, "", "Failed to read " ++ source ++ ": " ++ e.message ++ "\n"⟩, t) :=
  runOn_of_failure harguments (by simp only [assembly, hread])

/-- A source text that cannot be compiled. -/
theorem runOn_of_compile_error {snapshot : Option String} {e : CompileError}
    (harguments : arguments = source :: target.toList)
    (hread : t.Reads source text.toUTF8.data.toList) (hstem : Path.HasStem source snapshot)
    (hcompile : compile text snapshot = .error e) :
    runOn t arguments = (⟨1, Report.render e text source, ""⟩, t) := by
  refine runOn_of_failure harguments ?_
  simp only [assembly, FileTree.read_ok.mpr hread, Path.stem?_eq.mpr hstem, translate_eq_compile,
    hcompile]

/-- An assembly text that is delivered. -/
theorem runOn_of_compile_ok {snapshot : Option String} {a : String}
    (harguments : arguments = source :: target.toList)
    (hread : t.Reads source text.toUTF8.data.toList) (hstem : Path.HasStem source snapshot)
    (hcompile : compile text snapshot = .ok a) :
    runOn t arguments = (deliver FileTree.files ⟨source, target⟩ a).run t := by
  have hcommand : ofArguments arguments = .ok ⟨source, target⟩ := ofArguments_ok.mpr harguments
  have hassembly : assembly ⟨source, target⟩ (t.read source) = .ok a := by
    simp only [assembly, FileTree.read_ok.mpr hread, Path.stem?_eq.mpr hstem,
      translate_eq_compile, hcompile]
  simp only [runOn, run, hcommand, StateT.run_bind, run_read, pure_bind, hassembly]

theorem deliver_of_takes {a path : String} {place : List String} (h : t.Takes path place) :
    (deliver FileTree.files ⟨source, some path⟩ a).run t =
      (⟨0, "", ""⟩, t.insert place (.file a.toUTF8.data.toList)) := by
  have hwrite : t.write path a = .ok (t.insert place (.file a.toUTF8.data.toList)) :=
    FileTree.write_ok.mpr ⟨place, h, rfl⟩
  simp only [deliver, StateT.run_bind, run_write_ok hwrite, pure_bind, written]
  rfl

/-- Delivering fails only with a path that takes no file, and then it changes
nothing. -/
theorem deliver_cases (c : Command) (a : String) (t : FileTree) :
    (∀ path ∈ c.target, ∃ place, t.Takes path place) ∨
      (((deliver FileTree.files c a).run t).1.code ≠ 0 ∧
        ((deliver FileTree.files c a).run t).2 = t) := by
  obtain ⟨source, target⟩ := c
  cases target with
  | none => exact .inl (by simp)
  | some path =>
      cases hwrite : t.write path a with
      | ok after =>
          obtain ⟨place, htakes, -⟩ := FileTree.write_ok.mp hwrite
          refine .inl ?_
          rintro _ ⟨⟩
          exact ⟨place, htakes⟩
      | error e =>
          simp only [deliver, StateT.run_bind, run_write_error hwrite, pure_bind, written]
          exact .inr ⟨(by decide : (1 : UInt32) ≠ 0), rfl⟩

/-! ### Exits -/

/-- The arguments name a source file that may be read, and perhaps a target. The
source text compiles to this assembly text, with a snapshot named by the stem of
the path, and the target takes a file. -/
structure Feasible (arguments : List String) (t : FileTree) (source : String)
    (target : Option String) (text assembly : String) : Prop where
  arguments : arguments = source :: target.toList
  reads : t.Reads source text.toUTF8.data.toList
  compiles : ∃ snapshot, Path.HasStem source snapshot ∧ compile text snapshot = .ok assembly
  takes : ∀ path ∈ target, ∃ place, t.Takes path place

theorem Feasible.runOn_eq {a : String} (h : Feasible arguments t source target text a) :
    runOn t arguments = (deliver FileTree.files ⟨source, target⟩ a).run t := by
  obtain ⟨snapshot, hstem, hcompile⟩ := h.compiles
  exact runOn_of_compile_ok h.arguments h.reads hstem hcompile

theorem Feasible.code_eq {a : String} (h : Feasible arguments t source target text a) :
    (runOn t arguments).1.code = 0 := by
  rw [h.runOn_eq]
  cases target with
  | none => rfl
  | some path =>
      obtain ⟨place, htakes⟩ := h.takes path rfl
      rw [deliver_of_takes htakes]

/-- A command line is feasible, or it leaves the files as they were. -/
theorem runOn_cases (arguments : List String) (t : FileTree) :
    (∃ source target text a, Feasible arguments t source target text a) ∨
      ((runOn t arguments).1.code ≠ 0 ∧ (runOn t arguments).2 = t) := by
  by_cases hcommand : ∃ source target, arguments = source :: Option.toList target
  · obtain ⟨source, target, harguments⟩ := hcommand
    cases hread : t.read source with
    | error e =>
        rw [runOn_of_unreadable harguments hread]
        exact .inr ⟨(by decide : (1 : UInt32) ≠ 0), rfl⟩
    | ok text =>
        have hreads := FileTree.read_ok.mp hread
        have hstem : Path.HasStem source (Path.stem? source) := Path.stem?_eq.mp rfl
        cases hcompile : compile text (Path.stem? source) with
        | error e =>
            rw [runOn_of_compile_error harguments hreads hstem hcompile]
            exact .inr ⟨(by decide : (1 : UInt32) ≠ 0), rfl⟩
        | ok a =>
            rw [runOn_of_compile_ok harguments hreads hstem hcompile]
            refine (deliver_cases ⟨source, target⟩ a t).imp_left fun h => ?_
            exact ⟨source, target, text, a, harguments, hreads, ⟨_, hstem, hcompile⟩, h⟩
  · rw [runOn_of_no_command fun source target h => hcommand ⟨source, target, h⟩]
    exact .inr ⟨(by decide : (2 : UInt32) ≠ 0), rfl⟩

/-- A command line ends with code 0 just when it is feasible. With one argument
it has then printed the assembly text and changed nothing. With two it has
printed nothing, the target names a file with the assembly text, and everywhere
else is what was there before. With any other code nothing has changed, and if
it is the source text that cannot be compiled, the report of the error has been
printed. -/
theorem run_exits (arguments : List String) (t : FileTree) :
    ((runOn t arguments).1.code = 0 ↔
        ∃ source target text a, Feasible arguments t source target text a) ∧
      (∀ source text a, Feasible arguments t source none text a →
        runOn t arguments = (⟨0, a, ""⟩, t)) ∧
      (∀ source path text a, Feasible arguments t source (some path) text a →
        ∃ place after, t.Takes path place ∧ runOn t arguments = (⟨0, "", ""⟩, after) ∧
          after.HasFile path place a.toUTF8.data.toList ∧
          (∀ other ≠ place, after.find? other = t.find? other) ∧
          after.working = t.working ∧ after.refusal? = t.refusal?) ∧
      ((runOn t arguments).1.code ≠ 0 → (runOn t arguments).2 = t) ∧
      (∀ source target text snapshot e, arguments = source :: Option.toList target →
        t.Reads source text.toUTF8.data.toList → Path.HasStem source snapshot →
        compile text snapshot = .error e →
        runOn t arguments = (⟨1, Report.render e text source, ""⟩, t)) := by
  refine ⟨?_, ?_, ?_, ?_, ?_⟩
  · constructor
    · intro hcode
      exact (runOn_cases arguments t).resolve_right fun h => h.1 hcode
    · rintro ⟨source, target, text, a, h⟩
      exact h.code_eq
  · intro source text a h
    rw [h.runOn_eq]
    rfl
  · intro source path text a h
    obtain ⟨place, htakes⟩ := h.takes path rfl
    refine ⟨place, _, htakes, ?_, htakes.hasFile _, fun other hother => ?_, rfl, rfl⟩
    · rw [h.runOn_eq, deliver_of_takes htakes]
    · exact FileTree.find?_insert_of_ne hother _
  · intro hcode
    rcases runOn_cases arguments t with ⟨_, _, _, _, h⟩ | ⟨-, hsame⟩
    · exact absurd h.code_eq hcode
    · exact hsame
  · intro source target text snapshot e harguments hreads hstem hcompile
    exact runOn_of_compile_error harguments hreads hstem hcompile

/-- A source file in a folder, compiled to a file outside of the working folder,
and the same where the system refuses to write. -/
theorem run_exits_above :
    let arguments := ["src/main.zx", "../main.asm"]
    let text := "def main() -> void:\n    print(7)\n"
    let t := FileTree.ofListing ["home"] [] [("src/main.zx", text.toUTF8.data.toList)]
    let locked := { t with refusal? := fun access _ =>
      if access = .write then some "Permission denied (os error 13)" else none }
    (∃ a place after, Feasible arguments t "src/main.zx" (some "../main.asm") text a ∧
      runOn t arguments = (⟨0, "", ""⟩, after) ∧
      after.HasFile "../main.asm" place a.toUTF8.data.toList) ∧
    (runOn locked arguments).1 =
      ⟨1, "", "Failed to write ../main.asm: Permission denied (os error 13)\n"⟩ ∧
    (runOn locked arguments).2 = locked := by
  intro arguments text t locked
  have hread : (t.read "src/main.zx").toOption = some text := by decide +kernel
  have hwrite : (t.write "../main.asm" "").toOption.isSome = true := by decide +kernel
  have hstem : Path.stem? "src/main.zx" = some "main" := by decide +kernel
  have hcompile : (compile text (some "main")).toOption.isSome = true := by decide +kernel
  have hlocked : (runOn locked arguments).1 =
      ⟨1, "", "Failed to write ../main.asm: Permission denied (os error 13)\n"⟩ := by
    decide +kernel
  obtain ⟨a, ha⟩ := Option.isSome_iff_exists.mp hcompile
  obtain ⟨written, hwritten⟩ := Option.isSome_iff_exists.mp hwrite
  obtain ⟨spot, htakes, -⟩ := FileTree.write_ok.mp (Result.ok_of_toOption hwritten)
  have hfeasible : Feasible arguments t "src/main.zx" (some "../main.asm") text a := by
    refine ⟨rfl, FileTree.read_ok.mp (Result.ok_of_toOption hread),
      ⟨_, Path.stem?_eq.mp hstem, Result.ok_of_toOption ha⟩, ?_⟩
    rintro _ ⟨⟩
    exact ⟨spot, htakes⟩
  obtain ⟨place, after, -, hrun, hfile, -⟩ := (run_exits arguments t).2.2.1 _ _ _ _ hfeasible
  refine ⟨⟨a, place, after, hfeasible, hrun, hfile⟩, hlocked, ?_⟩
  exact (run_exits arguments locked).2.2.2.1 (by rw [hlocked]; decide)

end Octet.Command
