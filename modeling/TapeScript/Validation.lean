import TapeScript.Compilation
import TapeScript.Host.Collector
import TapeScript.Interpreter
import TapeScript.Text.Quoted

/-! Comparison of a compiled program with the interpreter, by the bytes they put out on the same
input. -/
namespace TapeScript

/-- What was said along the way, and what came of it. -/
structure Logged (α : Type) where
  log : List String
  result : Except Error α

/-- A program to try, with the lines handed out once its literal input is used up. -/
structure Trial where
  source : String
  lines : List String := []
  deriving DecidableEq, Repr

namespace Validation

/-- A byte that may be missing. -/
def byteText : Option UInt8 → String
  | some byte => toString byte
  | none => "undefined"

/-- A position at which two outputs differ; one of the bytes may be missing. -/
structure Difference where
  position : Nat
  expected? : Option UInt8
  actual? : Option UInt8
  deriving DecidableEq, Repr

def Difference.text (difference : Difference) : String :=
  let position := difference.position
  let expected := byteText difference.expected?
  let actual := byteText difference.actual?
  s!"at {position} {expected}[exp] - {actual}"

/-- The positions at which two outputs differ, in order. -/
def differences (expected actual : Array UInt8) : List Difference :=
  (List.range (max expected.size actual.size)).filterMap fun position =>
    if expected[position]? = actual[position]? then none
    else some ⟨position, expected[position]?, actual[position]?⟩

/-- How many differences are shown. -/
def shownDifferences : Nat := 6

/-- The verdict on two outputs. -/
def compare (verbose : Bool) (expected actual : Array UInt8) : Logged Unit :=
  let found := differences expected actual
  { log := (if verbose then ["Test output " ++ Text.quoted (Text.latin1 actual.toList)] else []) ++
      (found.take shownDifferences).map (·.text)
    result := if found.isEmpty then .ok () else .error .mismatch }

/-- Run a compiled program and the interpreter on the same input and compare, unless the program fails. None if
one of them does not end within so many steps. -/
def validate? (engine : Engine Collector) (fuel : Nat) (trial : Trial) (compilation : Compilation) :
    Option (Logged Unit) := do
  let options := compilation.options
  let host := Collector.ofLines trial.lines
  match ← compilation.run? engine fuel host with
  | .failed error _ => some { log := [], result := .error error }
  | .ended state => do
    let final ← Interpreter.runSource? fuel none trial.source options.input? options.eof host
    some (compare options.verbose final.state.host.output state.host.output)

/-- Compile a program and validate the result. If that fails the stages of the compilation, its
program and its source are shown. -/
def compileAndValidate? (engine : Engine Collector) (fuel : Nat) (trial : Trial) (options : CompileOptions) :
    Option (Logged Compilation) :=
  match compile trial.source options with
  | .error error => some { log := [], result := .error error }
  | .ok compilation => do
    let verdict ← validate? engine fuel trial compilation
    let log := compilation.log ++ verdict.log
    match verdict.result with
    | .ok () => some { log, result := .ok compilation }
    | .error error =>
      let stages := if options.verbose then [] else compilation.fullLog
      let failing := [compilation.script, "Failing program:  " ++ trial.source]
      some { log := log ++ stages ++ failing, result := .error error }

end Validation
end TapeScript
