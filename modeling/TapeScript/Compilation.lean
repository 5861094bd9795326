import TapeScript.CompileOptions
import TapeScript.Machine.Engine
import TapeScript.Source
import TapeScript.Stream.Cancellation
import TapeScript.Stream.Fusion
import TapeScript.Stream.Reduction
import TapeScript.Stream.RunLength
import TapeScript.Token.Text

/-! Compilation of source text to a program: the stream of tokens, its text, and an account of what
the stages made of it. -/
namespace TapeScript

/-- Sizes taken along the stages: single tokens after cancellation, tokens after runs have been counted. -/
structure Stats where
  instructions : Nat
  cancelled : Nat
  tokens : Nat
  reducedLoops : Nat
  keptLoops : Nat
  statements : Nat
  deriving DecidableEq, Repr

/-- What the stages make of a stream. -/
structure Stages where
  source : List Token
  cancelled : List Token
  counted : List Token
  reduction : Reduction.Result
  fused : List Token

namespace Stages

/-- The stages of a stream that is left as it is. -/
def plain (source : List Token) : Stages where
  source
  cancelled := source
  counted := source
  reduction := { tokens := source, reduced := 0, kept := loopCount source }
  fused := source

def optimized (source : List Token) : Except Error Stages := do
  let cancelled := Cancellation.normalForm source
  let counted := RunLength.compress cancelled
  let reduction ← Reduction.reduceStream counted
  let fused ← Fusion.replaceAll reduction.tokens
  .ok { source, cancelled, counted, reduction, fused }

def stats (stages : Stages) : Stats where
  instructions := stages.source.length
  cancelled := stages.cancelled.length
  tokens := stages.counted.length
  reducedLoops := stages.reduction.reduced
  keptLoops := stages.reduction.kept
  statements := Token.totalStatements stages.fused

/-- The stages of optimization in words. -/
def describe (stages : Stages) : Except Error (List String) := do
  let instructions := stages.source.length
  let cancelled := stages.cancelled.length
  let tokens := stages.counted.length
  let reduced := stages.reduction.reduced
  let kept := stages.reduction.kept
  let fused ← streamText stages.fused
  .ok [
    s!"fold: {instructions} -> {cancelled} ops",
    s!"repeats: {cancelled} -> {tokens} tokens",
    s!"loops: {reduced} reduced, {kept} kept",
    "fused: " ++ fused]

end Stages

/-- A compiled program: the options with defaults filled in, the text of a function of the runtime, and what
optimization has to say. -/
structure Compilation where
  options : CompileOptions
  tokens : List Token
  stats : Stats
  script : String
  description : List String

namespace Compilation

/-- The sizes that matter, in one line. -/
def summary (compilation : Compilation) : String :=
  let instructions := compilation.stats.instructions
  let statements := compilation.stats.statements
  let reduced := compilation.stats.reducedLoops
  let kept := compilation.stats.keptLoops
  s!"{instructions} instructions -> {statements} statements; loops: {reduced} reduced, {kept} kept"

/-- All that compiling can say about itself. -/
def fullLog (compilation : Compilation) : List String := compilation.description ++ [compilation.summary]

/-- What compiling said about itself. -/
def log (compilation : Compilation) : List String :=
  if compilation.options.verbose then compilation.fullLog else []

/-- A script that runs the program on the standard streams. -/
def standalone (compilation : Compilation) : String :=
  let summary := compilation.summary
  let script := compilation.script
  Script.standalone s!"// {summary}\n{script}"

/-- What the tokens of the program mean. -/
def meaning {ρ : Type} [Host ρ] (engine : Engine ρ) (compilation : Compilation) : Meaning ρ where
  eof := compilation.options.eof
  extension := Extension.perform engine compilation.options.extensions

/-- Whether there are statements of users in the program. -/
def holdsStatements (compilation : Compilation) : Bool :=
  compilation.tokens.any fun token =>
    token.kind == .extension &&
      (Extension.template? compilation.options.extensions token.symbol?).any (· != Script.dump)

/-- The program before its first step. -/
def start? {ρ : Type} (compilation : Compilation) (host : ρ) : Option (Config ρ) := do
  let code ← Code.ofTokens? compilation.tokens
  some { code, after := [], state := State.start compilation.options.input? host }

/-- Run the program to its end, if it gets there within so many steps. With statements of users in it the engine
may have to run it as a whole. -/
def run? {ρ : Type} [Host ρ] (engine : Engine ρ) (fuel : Nat) (compilation : Compilation) (host : ρ) :
    Option (Outcome ρ) :=
  if compilation.holdsStatements && engine.isWhole compilation.script then
    engine.runWhole? compilation.script host
  else do
    let config ← compilation.start? host
    config.run? (compilation.meaning engine) fuel

end Compilation

/-- Compile a source text. -/
def compile (source : String) (given : CompileOptions) : Except Error Compilation := do
  let options := given.withDefaults
  let parsed ← Source.parse options.extensions source
  let stages ← if options.optimize then Stages.optimized parsed else .ok (Stages.plain parsed)
  let description ← if options.optimize then stages.describe else .ok []
  let numbers := (Literal.buffer options.input?).map fun byte => (byte.toNat : Int)
  let script ← emitProgram options.dialect numbers stages.fused
  .ok { options, tokens := stages.fused, stats := stages.stats, script, description }

end TapeScript
