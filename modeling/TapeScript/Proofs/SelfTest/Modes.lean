import TapeScript.Proofs.SelfTest

/-! What a self-test that goes well has compiled. Every sample is compiled twice, with the same options but
for optimization. The second time optimization is the other way round, unless nothing was said of it: then
both programs are optimized. -/
namespace TapeScript.SelfTest

/-- Jobs done one after the other, with the programs that were compiled and passed on the way. -/
def traced? (engine : Engine Collector) (fuel : Nat) : List Job → Option (List (Trial × Compilation) × Logged Unit)
  | [] => some ([], { log := [], result := .ok () })
  | job :: jobs => do
    let first ← Validation.compileAndValidate? engine fuel job.trial job.options
    let log := job.headings ++ first.log
    match first.result with
    | .error error => some ([], { log, result := .error error })
    | .ok compilation => do
      let (programs, rest) ← traced? engine fuel jobs
      some ((job.trial, compilation) :: programs, { rest with log := log ++ rest.log })

/-- The programs are all that a trace adds. -/
theorem runJobs?_eq (engine : Engine Collector) (fuel : Nat) (jobs : List Job) :
    runJobs? engine fuel jobs = (traced? engine fuel jobs).map (·.2) := by
  induction jobs with
  | nil => rfl
  | cons job jobs ih =>
    rw [runJobs?, traced?, ih]
    cases Validation.compileAndValidate? engine fuel job.trial job.options with
    | none => rfl
    | some first =>
      obtain ⟨log, _ | compilation⟩ := first
      · rfl
      · cases traced? engine fuel jobs <;> rfl

/-- Jobs that passed, and the programs that came of them. -/
inductive Passed (engine : Engine Collector) : List Job → List (Trial × Compilation) → Prop where
  | nil : Passed engine [] []
  | cons {job : Job} {jobs : List Job} {compilation : Compilation} {programs : List (Trial × Compilation)}
      (compiled : compile job.trial.source job.options = .ok compilation)
      (confirms : job.trial.Confirms engine compilation)
      (rest : Passed engine jobs programs) : Passed engine (job :: jobs) ((job.trial, compilation) :: programs)

variable {engine : Engine Collector}

theorem passed_of_traced {fuel : Nat} {jobs : List Job} {programs : List (Trial × Compilation)} {log : List String}
    (ends : traced? engine fuel jobs = some (programs, ⟨log, .ok ()⟩)) : Passed engine jobs programs := by
  induction jobs generalizing programs log with
  | nil =>
    cases ends
    exact .nil
  | cons job jobs ih =>
    obtain ⟨⟨first, result⟩, validated, ends⟩ := Option.bind_eq_some_iff.mp ends
    have made := fun compilation => @Validation.compileAndValidate?_ok_iff _ _ _ _ compilation _ _ validated
    cases result with
    | error => cases ends
    | ok compilation =>
      obtain ⟨compiled, confirms⟩ := (made compilation).mp rfl
      obtain ⟨⟨others, logOthers, resultOthers⟩, rest, ends⟩ := Option.bind_eq_some_iff.mp ends
      cases ends
      exact .cons compiled confirms (ih rest)

/-- A sample with the programs it was compiled to, in turn. -/
structure Tested where
  sample : Sample
  first : Compilation
  second : Compilation

def Tested.programs (test : Tested) : List (Trial × Compilation) :=
  [(test.sample.trial, test.first), (test.sample.trial, test.second)]

/-- A program that passed, compiled with these options but with optimization on or off. -/
structure PassesIn (engine : Engine Collector) (optimize : Bool) (options : CompileOptions) (trial : Trial)
    (compilation : Compilation) : Prop where
  compiled : compile trial.source { options with optimize? := some optimize } = .ok compilation
  options : compilation.options = { options with optimize? := some optimize }.withDefaults
  confirms : trial.Confirms engine compilation

theorem PassesIn.optimize {optimize : Bool} {options : CompileOptions} {trial : Trial} {compilation : Compilation}
    (passes : PassesIn engine optimize options trial compilation) : compilation.options.optimize = optimize := by
  rw [passes.options]
  rfl

/-- Both programs of a sample passed, compiled in these modes with its own options over the others. -/
structure Tested.Holds (engine : Engine Collector) (options : CompileOptions) (first second : Bool) (test : Tested) :
    Prop where
  first : PassesIn engine first (options.override test.sample.options) test.sample.trial test.first
  second : PassesIn engine second (options.override test.sample.options) test.sample.trial test.second

private theorem passesIn_of_compile {optimize : Bool} {options given : CompileOptions} {trial : Trial}
    {compilation : Compilation} (same : given.withDefaults = { options with optimize? := some optimize }.withDefaults)
    (compiled : compile trial.source given = .ok compilation) (confirms : trial.Confirms engine compilation) :
    PassesIn engine optimize options trial compilation where
  compiled := by
    rw [← compiled, compile, ← same]
    rfl
  options := (options_of_compile compiled).trans same
  confirms

/-- The jobs of samples that leave optimization open. -/
private theorem tested_of_passed {options : CompileOptions} {samples : List (String × Sample)}
    {programs : List (Trial × Compilation)} (leaves : ∀ sample ∈ samples, sample.2.options.optimize? = none)
    (passed : Passed engine (samples.flatMap fun sample => jobs options sample.1 sample.2) programs) :
    ∃ tests : List Tested, tests.map (·.sample) = samples.map (·.2) ∧ programs = tests.flatMap (·.programs) ∧
      ∀ test ∈ tests, test.Holds engine options options.optimize (!options.optimize?.getD false) := by
  induction samples generalizing programs with
  | nil =>
    cases passed
    exact ⟨[], rfl, rfl, by simp⟩
  | cons sample samples ih =>
    obtain ⟨heading, sample⟩ := sample
    have own : (options.override sample.options).optimize? = options.optimize? := by
      rw [CompileOptions.override, leaves (heading, sample) (by simp)]
      rfl
    cases passed with
    | cons compiled confirms passed =>
      cases passed with
      | @cons _ _ second _ compiledSecond confirmsSecond passed =>
        rename_i first _
        obtain ⟨tests, samplesOf, rfl, hold⟩ := ih (fun other member => leaves other (by simp [member])) passed
        refine ⟨⟨sample, first, second⟩ :: tests, by simp [samplesOf], rfl, ?_⟩
        intro test member
        rcases List.mem_cons.mp member with rfl | member
        · refine ⟨passesIn_of_compile ?_ compiled confirms, passesIn_of_compile ?_ compiledSecond confirmsSecond⟩
          · simp [CompileOptions.withDefaults, CompileOptions.optimize, CompileOptions.eof, own]
          · simp [CompileOptions.withDefaults, CompileOptions.optimize, CompileOptions.eof, flipped, own]
        · exact hold test member

/-- The samples, and the random programs that end. -/
def checked (count : Nat) (seed : Int) : List Sample :=
  Sample.all ++ (((Random.programs count).run (.ofSeed seed)).1.filter (·.endsWithin 50000)).map Sample.ofRandom

theorem checked_eq (count : Nat) (seed : Int) :
    checked count seed = Sample.all ++ ((randomSamples count).run (.ofSeed seed)).1 := by
  have same : (fun program => (Sample.ofRandom program).endsByDefault) = fun program => program.endsWithin 50000 :=
    funext Sample.endsByDefault_ofRandom
  rw [checked, randomSamples_eq, List.filter_map, ← same]
  rfl

/-- No sample has its own say on optimization. -/
private theorem leaves_open {count : Nat} {seed : Int} :
    ∀ sample ∈ checked count seed, sample.options.optimize? = none := by
  have samples : ∀ sample ∈ Sample.all, sample.options.optimize? = none := by decide
  intro sample member
  rcases List.mem_append.mp member with member | member
  · exact samples sample member
  · obtain ⟨program, _, rfl⟩ := List.mem_map.mp member
    rfl

/-- A self-test that goes well leaves a trace of all its jobs. The first program of a sample is in the mode that was
asked for, or optimized; the second is in the other mode, or optimized as well. -/
private theorem traced_of_run {fuel : Nat} {options : CompileOptions} {count : Nat} {seed : Int} {log : List String}
    {number : Nat} (ends : run? engine fuel options count seed = some ⟨log, .ok number⟩) :
    ∃ tests : List Tested, tests.map (·.sample) = checked count seed ∧
      traced? engine fuel (allJobs options ((randomSamples count).run (.ofSeed seed)).1) =
        some (tests.flatMap (·.programs), ⟨log, .ok ()⟩) ∧
      ∀ test ∈ tests, test.Holds engine options options.optimize (!options.optimize?.getD false) := by
  have leaves := @leaves_open count seed
  rw [checked_eq] at leaves ⊢
  simp only [run?] at ends
  generalize ((randomSamples count).run (.ofSeed seed)).1 = random at *
  obtain ⟨⟨_, result⟩, done, ends⟩ := Option.bind_eq_some_iff.mp ends
  rw [runJobs?_eq] at done
  obtain ⟨⟨programs, _⟩, traced, rfl⟩ := Option.map_eq_some_iff.mp done
  cases result with
  | error => cases ends
  | ok =>
    cases ends
    let headed := Sample.all.map (fun sample => ("*** " ++ sample.name, sample)) ++
      random.map fun sample => ("*** random: " ++ sample.source, sample)
    have alone : headed.map (·.2) = Sample.all ++ random := by simp [headed, Function.comp_def]
    have jobsOf : allJobs options random = headed.flatMap fun sample => jobs options sample.1 sample.2 := by
      simp [headed, allJobs, List.flatMap_map]
    have leavesHeaded : ∀ sample ∈ headed, sample.2.options.optimize? = none := fun sample member =>
      leaves sample.2 (alone ▸ List.mem_map_of_mem member)
    obtain ⟨tests, samples, rfl, hold⟩ := tested_of_passed leavesHeaded (jobsOf ▸ passed_of_traced traced)
    exact ⟨tests, samples.trans alone, traced, hold⟩

/-- The samples pass. -/
private theorem exists_run (engine : Engine Collector) {options : CompileOptions} (plain : options.extensions = [])
    (seed : Int) :
    ∃ fuel log, run? engine fuel options 0 seed = some ⟨log, .ok 0⟩ := by
  obtain ⟨enough, passes⟩ := runJobs?_ok engine (allJobs_pass plain (show ∀ program ∈ [], _ from by simp))
  obtain ⟨log, ran⟩ := passes enough (Nat.le_refl _)
  change runJobs? engine enough (allJobs options ((randomSamples 0).run (.ofSeed seed)).1) = _ at ran
  refine ⟨enough, log, ?_⟩
  simp only [run?, ran, bind, Option.bind]
  rfl

/-- A self-test that goes well has compiled every sample and every random program that ends twice, with the same
options but for optimization. If they say that a program is to be optimized or not, it was compiled once in that mode
and once in the other; if they do not, it was optimized both times. -/
theorem modes_tested {fuel : Nat} {options : CompileOptions} {count : Nat} {seed : Int} {log : List String}
    {number : Nat} (ends : run? engine fuel options count seed = some ⟨log, .ok number⟩) :
    ∃ tests : List Tested, tests.map (·.sample) = checked count seed ∧
      traced? engine fuel (allJobs options ((randomSamples count).run (.ofSeed seed)).1) =
        some (tests.flatMap (·.programs), ⟨log, .ok ()⟩) ∧
      (∀ mode, options.optimize? = some mode → ∀ test ∈ tests, test.Holds engine options mode (!mode)) ∧
      (options.optimize? = none → ∀ test ∈ tests, test.Holds engine options true true) := by
  obtain ⟨tests, samples, traced, hold⟩ := traced_of_run ends
  refine ⟨tests, samples, traced, ?_, ?_⟩
  · intro mode asked
    simpa only [CompileOptions.optimize, asked, Option.getD_some] using hold
  · intro silent
    simpa [CompileOptions.optimize, silent] using hold

/-- The samples alone, with optimization switched off first. -/
theorem modes_tested_samples : ∃ fuel log,
    run? (.emitting 42) fuel { optimize? := some false } 0 defaultSeed = some ⟨log, .ok 0⟩ ∧
    ∃ tests : List Tested, tests.map (·.sample) = Sample.all ∧
      ∀ test ∈ tests, test.Holds (.emitting 42) { optimize? := some false } false true := by
  obtain ⟨fuel, log, ends⟩ := @exists_run (.emitting 42) { optimize? := some false } rfl defaultSeed
  obtain ⟨tests, samples, _, asked, _⟩ := modes_tested ends
  exact ⟨fuel, log, ends, tests, samples, asked false rfl⟩

/-- It is not that every self-test that goes well has compiled all its samples in both modes. -/
theorem not_always_both_modes :
    ¬∀ (engine : Engine Collector) (fuel : Nat) (options : CompileOptions) (count : Nat) (seed : Int)
        (log : List String) (number : Nat),
      run? engine fuel options count seed = some ⟨log, .ok number⟩ →
      ∃ tests : List Tested, tests.map (·.sample) = checked count seed ∧
        traced? engine fuel (allJobs options ((randomSamples count).run (.ofSeed seed)).1) =
          some (tests.flatMap (·.programs), ⟨log, .ok ()⟩) ∧
        ∀ test ∈ tests, ∃ mode, test.Holds engine options mode (!mode) := by
  intro both
  obtain ⟨fuel, log, ends⟩ := @exists_run (.emitting 42) {} rfl defaultSeed
  obtain ⟨tests, samples, traced, modes⟩ := both (.emitting 42) fuel {} 0 defaultSeed log 0 ends
  obtain ⟨others, samplesOther, tracedOther, hold⟩ := traced_of_run ends
  have programs : tests.flatMap (·.programs) = others.flatMap (·.programs) := by
    rw [traced] at tracedOther
    exact congrArg Prod.fst (Option.some.inj tracedOther)
  -- The first sample will do: its programs are the same both times.
  cases tests with
  | nil => cases samples
  | cons test =>
    cases others with
    | nil => cases samplesOther
    | cons other =>
      obtain ⟨mode, holds⟩ := modes test (by simp)
      have optimized := hold other (by simp)
      obtain ⟨⟨_, first⟩, ⟨_, second⟩, _⟩ : (_ ∧ test.first = other.first) ∧ (_ ∧ test.second = other.second) ∧ _ := by
        simpa [Tested.programs] using programs
      have on : mode = true := by rw [← holds.first.optimize, first, optimized.first.optimize]; rfl
      have off : (!mode) = true := by rw [← holds.second.optimize, second, optimized.second.optimize]; rfl
      simp [on] at off

end TapeScript.SelfTest
