import TapeScript.Proofs.Command.FileSystem
import TapeScript.Proofs.Command.Options
import TapeScript.Proofs.Validation

/-! What a command does to the disk. Nothing, unless all that can be checked is in order; then it makes the
directory of the script, and writes the script. -/
namespace TapeScript

namespace Command

variable {engine : Engine Collector} {fuel : Nat} {settings : Settings} {operands : List String} {files : FileSystem}
  {path source : String} {options : CompileOptions} {compilation : Compilation} {elapsed : String}

theorem sourceAndOptions_ok_iff : sourceAndOptions settings path files = .ok (source, options) ↔
    files.lookup? path = some (.file source) ∧ Requested settings options := by
  rw [← options_ok_iff, ← FileSystem.read_ok_iff]
  cases text : files.read path with
  | error =>
    cases present : files.contains path <;> simp [sourceAndOptions, Error.require, present, text, bind, Except.bind]
  | ok content =>
    have present : files.contains path = true := by
      rw [FileSystem.contains, FileSystem.read_ok_iff.mp text]
      rfl
    cases listed : settings.options <;>
      simp [sourceAndOptions, Error.require, present, text, listed, bind, Except.bind]

theorem compileSource?_ok_iff {log : List String} {result : Except Error Compilation}
    (ends : compileSource? engine fuel settings source options = some ⟨log, result⟩) :
    result = .ok compilation ↔ compile source options = .ok compilation ∧
      (settings.validate = true → Trial.Confirms engine { source } compilation) := by
  rw [compileSource?] at ends
  split at ends
  · rename_i validate
    simpa [validate] using Validation.compileAndValidate?_ok_iff ends
  · rename_i validate
    cases compiled : compile source options <;>
    · rw [compiled] at ends
      cases ends
      simp [validate]

/-- What is checked before anything is written: there is one operand and it is a file, the flags have a
meaning, the extensions are accepted, and a validation that was asked for has been passed. -/
structure Cleared (engine : Engine Collector) (settings : Settings) (operands : List String) (files : FileSystem)
    (path source : String) (options : CompileOptions) (compilation : Compilation) : Prop where
  compiles : settings.selfTest = false
  single : operands = [path]
  found : files.lookup? path = some (.file source)
  requested : Requested settings options
  accepted : Extension.check options.extensions = .ok ()
  compiled : compile source options = .ok compilation
  validated : settings.validate = true → Trial.Confirms engine { source } compilation

theorem Cleared.unique {other text : String} {others : CompileOptions} {otherCompilation : Compilation}
    (cleared : Cleared engine settings operands files path source options compilation)
    (clearedOther : Cleared engine settings operands files other text others otherCompilation) :
    other = path ∧ otherCompilation = compilation := by
  obtain rfl := (List.cons.inj (cleared.single.symm.trans clearedOther.single)).1
  have ready := sourceAndOptions_ok_iff.mpr ⟨cleared.found, cleared.requested⟩
  rw [sourceAndOptions_ok_iff.mpr ⟨clearedOther.found, clearedOther.requested⟩] at ready
  cases ready
  exact ⟨rfl, Except.ok.inj (clearedOther.compiled.symm.trans cleared.compiled)⟩

/-- Nothing is in order where a program cannot be compiled or is refused when it is tried out. -/
theorem not_cleared_of_refused {log : List String} {error : Error}
    (ready : sourceAndOptions settings path files = .ok (source, options))
    (refused : compileSource? engine fuel settings source options = some ⟨log, .error error⟩) (text : String)
    (others : CompileOptions) (compilation : Compilation) :
    ¬Cleared engine settings [path] files path text others compilation := by
  intro cleared
  rw [sourceAndOptions_ok_iff.mpr ⟨cleared.found, cleared.requested⟩] at ready
  cases ready
  cases (compileSource?_ok_iff refused).mpr ⟨cleared.compiled, cleared.validated⟩

/-- A program is compiled and then written, or there is an error. -/
theorem compileFile?_cases {progress : Progress} (compiles : settings.selfTest = false)
    (ends : compileFile? engine fuel settings path files = some progress) :
    (∃ source options compilation log, Cleared engine settings [path] files path source options compilation ∧
      progress = writeScript settings path compilation { log, files }) ∨
    (∀ source options compilation, ¬Cleared engine settings [path] files path source options compilation) ∧
      ∃ log error, progress = Progress.fail { log, files } error := by
  rw [compileFile?] at ends
  cases ready : sourceAndOptions settings path files with
  | error error =>
    rw [ready] at ends
    refine .inr ⟨fun source options compilation cleared => ?_, [], error, (Option.some.inj ends).symm⟩
    rw [sourceAndOptions_ok_iff.mpr ⟨cleared.found, cleared.requested⟩] at ready
    cases ready
  | ok pair =>
    obtain ⟨source, options⟩ := pair
    rw [ready] at ends
    obtain ⟨⟨log, result⟩, compiled, ends⟩ := Option.bind_eq_some_iff.mp ends
    cases result with
    | error error =>
      exact .inr ⟨not_cleared_of_refused ready compiled, log, error, (Option.some.inj ends).symm⟩
    | ok compilation =>
      obtain ⟨found, requested⟩ := sourceAndOptions_ok_iff.mp ready
      obtain ⟨made, validated⟩ := (compileSource?_ok_iff compiled).mp rfl
      exact .inl ⟨source, options, compilation, log,
        ⟨compiles, rfl, found, requested, Extension.check_of_compile made, made, validated⟩,
        (Option.some.inj ends).symm⟩

/-- A script is on disk, or there is an error and nothing but directories is new. -/
theorem writeScript_cases {log : List String} {progress : Progress}
    (ends : progress = writeScript settings path compilation { log, files }) :
    progress.failed = false ∧ files.Writes progress.files (settings.scriptPath path) compilation.standalone ∨
      progress.failed = true ∧ progress.program? = none ∧ files.Extends progress.files := by
  have made := files.extends_ensureDirectory settings.folder
  rw [writeScript] at ends
  split at ends
  · rename_i stopped
    rw [stopped] at made
    subst ends
    exact .inr ⟨rfl, rfl, made⟩
  · rename_i ready
    rw [ready] at made
    simp only at ends
    split at ends
    · subst ends
      exact .inr ⟨rfl, rfl, made⟩
    · subst ends
      exact .inl ⟨rfl, made.writes (FileSystem.writes_of_write ‹_›)⟩

/-- The self-test was asked for and has been passed. -/
def Tested (engine : Engine Collector) (fuel : Nat) (settings : Settings) : Prop :=
  settings.selfTest = true ∧ ∃ log number, selfTest? engine fuel settings = some ⟨log, .ok number⟩

/-- The ways in which a command goes up to the run of a program: there is nothing to write, or it writes. -/
theorem prepare?_cases {progress : Progress}
    (ends : prepare? engine fuel settings operands elapsed files = some progress) :
    (∀ path source options compilation, ¬Cleared engine settings operands files path source options compilation) ∧
      progress.files = files ∧ progress.program? = none ∧ (progress.failed = true ∨ Tested engine fuel settings) ∨
    ∃ path source options compilation log, Cleared engine settings operands files path source options compilation ∧
      progress = writeScript settings path compilation { log, files } := by
  unfold prepare? at ends
  cases chosen : settings.selfTest with
  | true =>
    rw [if_pos chosen] at ends
    obtain ⟨⟨log, result⟩, tested, made⟩ := Option.map_eq_some_iff.mp ends
    subst made
    refine .inl ⟨fun path source options compilation cleared => ?_, ?_⟩
    · rw [cleared.compiles] at chosen
      cases chosen
    · cases result with
      | ok number => exact ⟨rfl, rfl, .inr ⟨chosen, log, number, tested⟩⟩
      | error error => exact ⟨rfl, rfl, .inl rfl⟩
  | false =>
    rw [if_neg (by simp [chosen])] at ends
    split at ends
    · rename_i path
      rcases compileFile?_cases chosen ends with
        ⟨source, options, compilation, log, cleared, made⟩ | ⟨none, log, error, made⟩
      · exact .inr ⟨path, source, options, compilation, log, cleared, made⟩
      · subst made
        refine .inl ⟨fun other source options compilation cleared => ?_, rfl, rfl, .inl rfl⟩
        obtain rfl := (List.cons.inj cleared.single).1
        exact none source options compilation cleared
    · rename_i several
      cases ends
      exact .inl ⟨fun path _ _ _ cleared => several path cleared.single, rfl, rfl, .inl rfl⟩

/-- What a command reports comes from what it did up to the run of a program, which has no part in the disk. -/
theorem report_of_carryOut? {running : Engine Console} {stdin : List UInt8} {report : Report}
    (ends : carryOut? engine running fuel settings operands elapsed files stdin = some report) :
    ∃ progress, prepare? engine fuel settings operands elapsed files = some progress ∧ report.files = progress.files ∧
      (progress.program? = none → report.exitCode = if progress.failed then 1 else 0) := by
  obtain ⟨progress, prepared, ends⟩ := Option.bind_eq_some_iff.mp ends
  refine ⟨progress, prepared, ?_⟩
  split at ends
  · cases ends
    exact ⟨rfl, fun _ => rfl⟩
  · rename_i compilation program
    obtain ⟨outcome, _, made⟩ := Option.bind_eq_some_iff.mp ends
    cases made
    rw [program]
    cases outcome <;> exact ⟨rfl, nofun⟩

/-- A command that fails leaves no trace on disk. Where something that can be checked is not in order, no file
or directory is changed, and the exit code is 1 unless the command was a self-test that has been passed. Where
all is in order, the script of the program is on disk in the end, and nothing else is new but directories; or the
disk has refused one of them, and then the exit code is 1 and no file is changed. Whatever users have written into
a program, it is tried out by an engine that has no hold on the disk. -/
theorem failure_leaves_no_trace (trying : Engine Collector) (running : Engine Console) (settings : Settings)
    (operands : List String) (fuel : Nat) (elapsed : String) (files : FileSystem) (stdin : List UInt8) (report : Report)
    (ends : carryOut? trying running fuel settings operands elapsed files stdin = some report) :
    ((∀ path source options compilation, ¬Cleared trying settings operands files path source options compilation) →
      report.files = files ∧ (report.exitCode = 1 ∨ Tested trying fuel settings)) ∧
    ∀ path source options compilation, Cleared trying settings operands files path source options compilation →
      files.Writes report.files (settings.scriptPath path) compilation.standalone ∨
        report.exitCode = 1 ∧ files.Extends report.files := by
  obtain ⟨progress, prepared, disk, exit⟩ := report_of_carryOut? ends
  rw [disk]
  rcases prepare?_cases prepared with
    ⟨none, same, program, way⟩ | ⟨path, source, options, compilation, log, cleared, made⟩
  · refine ⟨fun _ => ⟨same, way.imp_left fun failed => ?_⟩, fun path source options compilation cleared =>
      absurd cleared (none path source options compilation)⟩
    rw [exit program, failed]
    rfl
  · refine ⟨fun none => absurd cleared (none path source options compilation), ?_⟩
    intro other text others otherCompilation clearedOther
    obtain ⟨rfl, rfl⟩ := cleared.unique clearedOther
    rcases writeScript_cases made with ⟨_, writes⟩ | ⟨failed, program, extends_⟩
    · exact .inl writes
    · refine .inr ⟨?_, extends_⟩
      rw [exit program, failed]
      rfl

private theorem lookup?_alone (content : String) :
    FileSystem.lookup? ⟨[(["a"], .file content)]⟩ "a" = some (.file content) := by
  rw [FileSystem.lookup?, FileSystem.locate, Path.splitOn_slash]
  rfl

/-- Flags that define an instruction and ask for programs to be tried out. -/
private def tried : Settings := { optimize := false, validate := true, extensions := ["!=rt.write(42);"] }

/-- The program puts out a byte that the interpreter does not. -/
private theorem exists_refusal :
    (∃ report, carryOut? (.emitting 42) (.emitting 42) 2 tried ["a"] "" ⟨[(["a"], .file "!")]⟩ [] = some report) ∧
    ∀ path source options compilation,
      ¬Cleared (.emitting 42) tried ["a"] ⟨[(["a"], .file "!")]⟩ path source options compilation := by
  let options : CompileOptions :=
    { extensions? := some [⟨"!", "rt.write(42);"⟩], optimize? := some false, verbose? := some false }
  have asked : tried.options = .ok options := rfl
  have ready := sourceAndOptions_ok_iff.mpr ⟨lookup?_alone "!", options_ok_iff.mp asked⟩
  obtain ⟨compilation, compiled, _, tokens⟩ := @exists_statement options rfl rfl
  have refused : ∃ log, compileSource? (.emitting 42) 2 tried "!" options = some ⟨log, .error .mismatch⟩ :=
    ⟨_, Validation.compileAndValidate?_emitting rfl rfl rfl compiled tokens⟩
  obtain ⟨log, refused⟩ := refused
  constructor
  · refine ⟨(Progress.fail { log, files := ⟨[(["a"], .file "!")]⟩ } .mismatch).report, ?_⟩
    rw [carryOut?, prepare?, if_neg (by decide)]
    simp only [compileFile?, ready, refused, bind, Option.bind]
    rfl
  · intro path source others compilationOther cleared
    obtain rfl := (List.cons.inj cleared.single).1
    exact not_cleared_of_refused ready refused _ _ _ cleared

private theorem ensureDirectory_alone (content : String) :
    FileSystem.ensureDirectory ⟨[(["a"], .file content)]⟩ "built" =
      (.ok (), ⟨[(["built"], .directory), (["a"], .file content)]⟩) := by
  have size : "built".length = 5 := by decide
  have above : Path.dirname "built" = "." := by decide
  have name : FileSystem.trimmed "built" = "built" := by decide
  have missing : FileSystem.contains ⟨[(["a"], .file content)]⟩ "built" = false := by
    rw [FileSystem.contains, FileSystem.lookup?, FileSystem.locate, Path.splitOn_slash]
    rfl
  have made : FileSystem.makeDirectory ⟨[(["a"], .file content)]⟩ "built" =
      .ok ⟨[(["built"], .directory), (["a"], .file content)]⟩ := by
    rw [FileSystem.makeDirectory, name, FileSystem.locate, Path.splitOn_slash]
    rfl
  simp [FileSystem.ensureDirectory, FileSystem.makeDirectories, size, missing, above, made]

private theorem scriptPath_plain : Settings.scriptPath {} "a" = "built/a.js" := by
  rw [Settings.scriptPath, Path.join, Path.normalize, Path.splitOn_slash]
  decide

/-- A program is written where the disk has room for it. -/
private theorem writeScript_alone (content : String) (compilation : Compilation) (log : List String) :
    (writeScript {} "a" compilation { log, files := ⟨[(["a"], .file content)]⟩ }).failed = false ∧
      (writeScript {} "a" compilation { log, files := ⟨[(["a"], .file content)]⟩ }).program? = none := by
  have leads : FileSystem.locate ⟨[(["built"], .directory), (["a"], .file content)]⟩ "built/a.js" =
      .ok ["built", "a.js"] := by
    rw [FileSystem.locate, Path.splitOn_slash]
    rfl
  have vacant : FileSystem.entry? ⟨[(["built"], .directory), (["a"], .file content)]⟩ ["built", "a.js"] = none := rfl
  rw [writeScript, show Settings.folder {} = "built" from rfl, ensureDirectory_alone]
  simp [scriptPath_plain, FileSystem.write, leads, vacant]

private theorem exists_success :
    ∃ options compilation report,
      Cleared (.emitting 42) {} ["a"] ⟨[(["a"], .file "+")]⟩ "a" "+" options compilation ∧
      compile "+" { extensions? := some [], optimize? := some true, verbose? := some false } = .ok compilation ∧
      carryOut? (.emitting 42) (.emitting 42) 0 {} ["a"] "" ⟨[(["a"], .file "+")]⟩ [] = some report ∧
      report.exitCode = 0 := by
  let options : CompileOptions := { extensions? := some [], optimize? := some true, verbose? := some false }
  obtain ⟨raw, grows⟩ := Source.exists_grows [] "+"
  obtain ⟨compilation, compiled, _⟩ := compile_ok options rfl grows (by decide)
  have requested : Requested {} options := options_ok_iff.mp rfl
  have ready := sourceAndOptions_ok_iff.mpr ⟨lookup?_alone "+", requested⟩
  obtain ⟨passed, program⟩ := writeScript_alone "+" compilation compilation.log
  refine ⟨options, compilation,
    (writeScript {} "a" compilation { log := compilation.log, files := ⟨[(["a"], .file "+")]⟩ }).report,
    ⟨rfl, rfl, lookup?_alone "+", requested, rfl, compiled, nofun⟩, compiled, ?_, ?_⟩
  · rw [carryOut?, prepare?, if_neg (by decide)]
    simp only [compileFile?, ready, compileSource?, compiled, bind, Option.bind]
    rw [if_neg (by decide)]
    simp only [program]
  · rw [Progress.report, passed]
    rfl

/-- A source file is compiled to a script in a new directory, and a program that does not do what the interpreter
does is not. -/
theorem failure_leaves_no_trace_folder : ∃ compilation report refusal,
    compile "+" { extensions? := some [], optimize? := some true, verbose? := some false } = .ok compilation ∧
      carryOut? (.emitting 42) (.emitting 42) 0 {} ["a"] "" ⟨[(["a"], .file "+")]⟩ [] = some report ∧
      FileSystem.Writes ⟨[(["a"], .file "+")]⟩ report.files "built/a.js" compilation.standalone ∧
      carryOut? (.emitting 42) (.emitting 42) 2
        { optimize := false, validate := true, extensions := ["!=rt.write(42);"] } ["a"] "" ⟨[(["a"], .file "!")]⟩ [] =
          some refusal ∧
      refusal.files = ⟨[(["a"], .file "!")]⟩ ∧ refusal.exitCode = 1 := by
  obtain ⟨options, compilation, report, cleared, compiled, ran, exit⟩ := exists_success
  obtain ⟨⟨refusal, ranAway⟩, uncleared⟩ := exists_refusal
  refine ⟨compilation, report, refusal, compiled, ran, ?_, ranAway, ?_⟩
  · rcases (failure_leaves_no_trace _ _ _ _ _ _ _ _ _ ran).2 _ _ _ _ cleared with writes | ⟨failed, _⟩
    · rwa [scriptPath_plain] at writes
    · rw [exit] at failed
      cases failed
  · obtain ⟨same, failed | tested⟩ := (failure_leaves_no_trace _ _ _ _ _ _ _ _ _ ranAway).1 uncleared
    · exact ⟨same, failed⟩
    · cases tested.1

end Command
end TapeScript
