import TapeScript.Command.Arguments
import TapeScript.Command.FileSystem
import TapeScript.Host.Console
import TapeScript.SelfTest

/-! The command: it compiles a source file to a script on disk, and can validate and run it. Nothing
is written before everything that can be checked has been. -/
namespace TapeScript.Command

/-- An extension from its definition: a character, an equals sign and a statement. -/
def extensionOf (definition : String) : Except Error Extension :=
  match definition.toList with
  | symbol :: '=' :: template =>
    if symbol = '=' ∨ (Text.charUnits symbol).length ≠ 1 then .error (.usage (.badExtension definition))
    else .ok { symbol := String.singleton symbol, template := String.ofList template }
  | _ => .error (.usage (.badExtension definition))

def endOfInputOf (text : String) : Except Error EndOfInput :=
  match EndOfInput.ofName? text with
  | some mode => .ok mode
  | none => .error (.usage (.badEndOfInput text (EndOfInput.all.map (·.name))))

/-- The compile options that the flags ask for. -/
def Settings.options (settings : Settings) : Except Error CompileOptions := do
  let eof? ← settings.eof?.mapM endOfInputOf
  let extensions ← settings.extensions.mapM extensionOf
  .ok {
    input? := settings.input?.map .text
    extensions? := some (extensions ++ if settings.dump then [Extension.dump] else [])
    eof?
    optimize? := some settings.optimize
    verbose? := some settings.debug }

/-- A flag's value, or the default in place of an empty or missing one. -/
def orDefault (value? : Option String) (default : String) : String :=
  match value? with
  | none | some "" => default
  | some value => value

/-- The directory of the script. -/
def Settings.folder (settings : Settings) : String := orDefault settings.output? "built"

/-- The path of the script of a source file. -/
def Settings.scriptPath (settings : Settings) (sourcePath : String) : String :=
  let name := orDefault settings.basename? (Path.stem (Path.basename sourcePath))
  Path.join settings.folder (name ++ ".js")

/-- What the command has done up to the point where a program is to be run, with the lines of both streams. -/
structure Progress where
  log : List String := []
  errors : List String := []
  files : FileSystem
  program? : Option Compilation := none
  failed : Bool := false

/-- How an error is shown. -/
def errorLine (error : Error) : String := if error.isUsage then error.message else "Error: " ++ error.message

def Progress.fail (progress : Progress) (error : Error) : Progress :=
  { progress with errors := progress.errors ++ [errorLine error], failed := true }

/-- Compile, and validate if the flags ask for it. -/
def compileSource? (engine : Engine Collector) (fuel : Nat) (settings : Settings) (source : String)
    (options : CompileOptions) : Option (Logged Compilation) :=
  if settings.validate then Validation.compileAndValidate? engine fuel { source } options
  else
    match compile source options with
    | .ok compilation => some { log := compilation.log, result := .ok compilation }
    | .error error => some { log := [], result := .error error }

/-- Write the script of a program. -/
def writeScript (settings : Settings) (sourcePath : String) (compilation : Compilation)
    (progress : Progress) : Progress :=
  match progress.files.ensureDirectory settings.folder with
  | (.error error, files) => { progress with files }.fail error
  | (.ok (), files) =>
    let path := settings.scriptPath sourcePath
    let script := compilation.standalone
    let size := (Text.utf8 script).length
    let summary := compilation.summary
    let progress := { progress with
      files, errors := progress.errors ++ [s!"write {path} ({size} bytes); {summary}"] }
    match files.write path script with
    | .error error => progress.fail error
    | .ok files => { progress with files, program? := if settings.run then some compilation else none }

/-- What has to be there before anything is compiled: the text of the source file, and the options. -/
def sourceAndOptions (settings : Settings) (sourcePath : String) (files : FileSystem) :
    Except Error (String × CompileOptions) := do
  Error.require (files.contains sourcePath) (.usage (.missingFile sourcePath))
  let source ← files.read sourcePath
  let options ← settings.options
  .ok (source, options)

/-- Compile a source file and write its script. -/
def compileFile? (engine : Engine Collector) (fuel : Nat) (settings : Settings) (sourcePath : String)
    (files : FileSystem) : Option Progress :=
  match sourceAndOptions settings sourcePath files with
  | .error error => some (Progress.fail { files } error)
  | .ok (source, options) => do
    let compiled ← compileSource? engine fuel settings source options
    let progress : Progress := { log := compiled.log, files }
    match compiled.result with
    | .error error => some (progress.fail error)
    | .ok compilation => some (writeScript settings sourcePath compilation progress)

/-- The compile options of the self-test. -/
def Settings.testOptions (settings : Settings) : CompileOptions := { verbose? := some settings.debug }

def selfTest? (engine : Engine Collector) (fuel : Nat) (settings : Settings) : Option (Logged Nat) :=
  SelfTest.run? engine fuel settings.testOptions SelfTest.defaultCount SelfTest.defaultSeed

/-- A self-test as it is shown, with the time it took. -/
def reportTest (settings : Settings) (elapsed : String) (files : FileSystem) (test : Logged Nat) :
    Progress :=
  let log := (SelfTest.closed settings.testOptions elapsed test).log
  match test.result with
  | .ok number => { files, log := log ++ [s!"self-test OK ({number} random programs)"] }
  | .error error => Progress.fail { files, log } error

/-- Carry out the command up to the run of a program. The time that a self-test took is shown as
`elapsed`. -/
def prepare? (engine : Engine Collector) (fuel : Nat) (settings : Settings) (operands : List String)
    (elapsed : String) (files : FileSystem) : Option Progress :=
  if settings.selfTest then (selfTest? engine fuel settings).map (reportTest settings elapsed files)
  else
    match operands with
    | [path] => compileFile? engine fuel settings path files
    | _ => some (Progress.fail { files } (.usage .argumentCount))

/-- What is seen of a command that is over: the bytes put out, the text of the error stream, and the files. -/
structure Report where
  exitCode : Nat
  output : List UInt8
  errors : String
  files : FileSystem

def linesText (lines : List String) : String := String.join (lines.map (· ++ "\n"))

/-- The report of a command that ran no program. -/
def Progress.report (progress : Progress) : Report where
  exitCode := if progress.failed then 1 else 0
  output := Text.utf8 (linesText progress.log)
  errors := linesText progress.errors
  files := progress.files

def Progress.addErrors (progress : Progress) (console : Console) : Progress :=
  { progress with errors := progress.errors ++ console.errors.toList }

def Report.addOutput (report : Report) (console : Console) : Report :=
  { report with output := report.output ++ console.written }

/-- The report of a command whose program put its output on a console. What a program that failed
has not written by then is lost. -/
def Progress.reportRun (progress : Progress) : Outcome Console → Report
  | .ended state =>
    let console := state.host.flush
    (progress.addErrors console).report.addOutput console
  | .failed error state => ((progress.addErrors state.host).fail error).report.addOutput state.host

/-- What a command does once its arguments are read. Programs are tried out with one engine and run with another,
for they are tried out in other surroundings. -/
def carryOut? (trying : Engine Collector) (running : Engine Console) (fuel : Nat) (settings : Settings)
    (operands : List String) (elapsed : String) (files : FileSystem) (stdin : List UInt8) : Option Report := do
  let progress ← prepare? trying fuel settings operands elapsed files
  match progress.program? with
  | none => some progress.report
  | some compilation => do
    let outcome ← compilation.run? running fuel (Console.ofStdin { bytes := stdin })
    some (progress.reportRun outcome)

/-- The command, from its arguments to its end. -/
def run? (trying : Engine Collector) (running : Engine Console) (fuel : Nat) (arguments : List String)
    (elapsed : String) (files : FileSystem) (stdin : List UInt8) : Option Report :=
  match Request.ofArguments arguments with
  | .version => some { exitCode := 0, output := Text.utf8 (versionText ++ "\n"), errors := "", files }
  | .help => some { exitCode := 0, output := Text.utf8 helpText, errors := "", files }
  | .failure error => some { exitCode := 1, output := [], errors := error.message ++ "\n", files }
  | .command settings operands => carryOut? trying running fuel settings operands elapsed files stdin

end TapeScript.Command
