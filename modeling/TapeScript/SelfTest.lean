import TapeScript.Sample

/-! The self-test: every sample, and random programs that end, compiled and validated with and
without optimization. -/
namespace TapeScript.SelfTest

/-- One compilation to validate, under a heading in verbose logs. -/
structure Job where
  headings : List String
  trial : Trial
  options : CompileOptions
  deriving DecidableEq, Repr

/-- The options of the second job for a sample: optimization the other way round. -/
def flipped (options : CompileOptions) : CompileOptions :=
  { options with optimize? := some (!options.optimize?.getD false) }

/-- The two jobs for a sample, whose own options come first. -/
def jobs (options : CompileOptions) (heading : String) (sample : Sample) : List Job :=
  let own := options.override sample.options
  [{ headings := if options.verbose then [heading] else [], trial := sample.trial, options := own },
    { headings := [], trial := sample.trial, options := flipped own }]

/-- The random programs to check: those that end within the default limit, out of so many drawn. -/
def randomSamples : Nat → Random (List Sample)
  | 0 => return []
  | count + 1 => do
    let sample := Sample.ofRandom (← Random.program)
    let rest ← randomSamples count
    return if sample.endsByDefault then sample :: rest else rest

/-- The jobs for the samples and for some random programs. -/
def allJobs (options : CompileOptions) (random : List Sample) : List Job :=
  Sample.all.flatMap (fun sample => jobs options ("*** " ++ sample.name) sample) ++
    random.flatMap fun sample => jobs options ("*** random: " ++ sample.source) sample

/-- Do jobs one after the other, up to the first that fails. -/
def runJobs? (engine : Engine Collector) (fuel : Nat) : List Job → Option (Logged Unit)
  | [] => some { log := [], result := .ok () }
  | job :: jobs => do
    let first ← Validation.compileAndValidate? engine fuel job.trial job.options
    let log := job.headings ++ first.log
    match first.result with
    | .error error => some { log, result := .error error }
    | .ok _ => do
      let rest ← runJobs? engine fuel jobs
      some { rest with log := log ++ rest.log }

/-- How many random programs are drawn where no number is given. -/
def defaultCount : Nat := 200

def defaultSeed : Int := 220

/-- Validate the samples, then random programs. The result is how many of those were checked. -/
def run? (engine : Engine Collector) (fuel : Nat) (options : CompileOptions) (count : Nat) (seed : Int) :
    Option (Logged Nat) := do
  let random := ((randomSamples count).run (.ofSeed seed)).1
  let done ← runJobs? engine fuel (allJobs options random)
  some { log := done.log, result := done.result.map fun () => random.length }

/-- The last words of a verbose self-test that went well. -/
def closing (options : CompileOptions) (elapsed : String) : Except Error Nat → List String
  | .ok number =>
    if options.verbose then [s!"\n*** All OK ({elapsed}ms, {number} random programs)\n"] else []
  | .error _ => []

/-- A self-test with its last words, the time it took being given in milliseconds. -/
def closed (options : CompileOptions) (elapsed : String) (test : Logged Nat) : Logged Nat :=
  { test with log := test.log ++ closing options elapsed test.result }

end TapeScript.SelfTest
