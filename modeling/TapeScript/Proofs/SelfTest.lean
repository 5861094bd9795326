import TapeScript.Proofs.Random
import TapeScript.Proofs.Sample
import TapeScript.SelfTest

/-! The self-test gives no false alarm: a run of few instructions stays inside the tape, so a program
that is checked at all is compiled to one that does the same. -/
namespace TapeScript

/-- Whether the interpreter ends on a random program within so many instructions. -/
def RandomProgram.endsWithin (limit : Nat) (program : RandomProgram) : Bool :=
  (Interpreter.runWithin (.ofSource program.source) .zero limit
    (.start (some (.text program.input)) (Collector.ofLines []))).status != .limit

/-- Random programs drawn one after the other. -/
def Random.programs : Nat → Random (List RandomProgram)
  | 0 => return []
  | count + 1 => do
    let program ← Random.program
    let rest ← programs count
    return program :: rest

namespace Sample

theorem endsByDefault_ofRandom (program : RandomProgram) :
    (ofRandom program).endsByDefault = program.endsWithin 50000 := by
  simp [endsByDefault, endsWithin?, Interpreter.runSource?, RandomProgram.endsWithin, ofRandom, options, literal,
    CompileOptions.eof, trial, defaultLimit]

theorem ends_ofRandom {program : RandomProgram} (ends : (ofRandom program).endsByDefault = true)
    (options : CompileOptions) : (ofRandom program).trial.Ends (options.override (ofRandom program).options) :=
  ends_of_endsWithin (by simpa [endsByDefault] using ends) (by decide) rfl rfl

end Sample

namespace SelfTest

/-- What makes a job pass. -/
structure Job.Passes (job : Job) : Prop where
  ends : job.trial.Ends job.options
  plain : job.options.extensions = []
  short : job.trial.source.length < UInt32.size

theorem runJobs?_ok (engine : Engine Collector) {jobs : List Job} (passes : ∀ job ∈ jobs, job.Passes) :
    ∃ enough, ∀ fuel ≥ enough, ∃ log, runJobs? engine fuel jobs = some { log, result := .ok () } := by
  induction jobs with
  | nil => exact ⟨0, fun _ _ => ⟨[], rfl⟩⟩
  | cons job jobs ih =>
    obtain ⟨ends, plain, short⟩ := passes job (by simp)
    obtain ⟨enough, found⟩ := Validation.compileAndValidate?_ok engine ends plain fun _ => short
    obtain ⟨enoughAfter, foundAfter⟩ := ih fun other member => passes other (by simp [member])
    refine ⟨max enough enoughAfter, fun fuel bound => ?_⟩
    obtain ⟨log, compilation, first⟩ := found fuel (by omega)
    obtain ⟨logAfter, rest⟩ := foundAfter fuel (by omega)
    exact ⟨job.headings ++ log ++ logAfter, by simp only [runJobs?, first, rest, bind, Option.bind]⟩

/-- Both jobs for a sample pass if it ends with its own options laid over the others. -/
theorem passes_of_mem_jobs {options : CompileOptions} {heading : String} {sample : Sample}
    (plain : options.extensions = [])
    (own : sample.options.extensions? = none) (ends : sample.trial.Ends (options.override sample.options))
    (short : sample.source.length < UInt32.size) : ∀ job ∈ jobs options heading sample, job.Passes := by
  have none : (options.override sample.options).extensions = [] := by
    rw [CompileOptions.extensions, CompileOptions.override, own]
    exact plain
  intro job member
  rcases List.mem_cons.mp member with rfl | member
  · exact ⟨ends, none, short⟩
  · obtain rfl := List.mem_singleton.mp member
    exact ⟨ends, none, short⟩

theorem randomSamples_eq (count : Nat) (generator : Generator) :
    (randomSamples count).run generator =
      ((((Random.programs count).run generator).1.map Sample.ofRandom).filter (·.endsByDefault),
        ((Random.programs count).run generator).2) := by
  induction count generalizing generator with
  | zero => rfl
  | succ count ih =>
    let first := Random.program.run generator
    let rest := (Random.programs count).run first.2
    have drawn : (Random.programs (count + 1)).run generator = (first.1 :: rest.1, rest.2) := rfl
    have kept : (randomSamples (count + 1)).run generator =
        (if (Sample.ofRandom first.1).endsByDefault then
          Sample.ofRandom first.1 :: ((randomSamples count).run first.2).1
        else ((randomSamples count).run first.2).1, ((randomSamples count).run first.2).2) := rfl
    rw [drawn, kept, ih, List.map_cons, List.filter_cons]

theorem programs_short (count : Nat) :
    Random.Always (fun programs => ∀ program ∈ programs, program.source.length < UInt32.size)
      (Random.programs count) := by
  induction count with
  | zero => exact .pure (by simp)
  | succ count ih =>
    refine Random.program_short.bind fun program short => ih.bind fun rest shortRest => .pure ?_
    intro other member
    rcases List.mem_cons.mp member with rfl | member
    · exact short
    · exact shortRest other member

theorem allJobs_pass {options : CompileOptions} (plain : options.extensions = []) {programs : List RandomProgram}
    (short : ∀ program ∈ programs, program.source.length < UInt32.size) :
    ∀ job ∈ allJobs options ((programs.map Sample.ofRandom).filter (·.endsByDefault)), job.Passes := by
  intro job member
  rcases List.mem_append.mp member with member | member
  · obtain ⟨sample, inAll, inJobs⟩ := List.mem_flatMap.mp member
    obtain ⟨own, shortSource⟩ := Sample.plain_of_mem sample inAll
    exact passes_of_mem_jobs plain own (Sample.ends_of_mem inAll options) shortSource job inJobs
  · obtain ⟨sample, kept, inJobs⟩ := List.mem_flatMap.mp member
    obtain ⟨inDrawn, ends⟩ := List.mem_filter.mp kept
    obtain ⟨program, inPrograms, rfl⟩ := List.mem_map.mp inDrawn
    exact passes_of_mem_jobs plain rfl (Sample.ends_ofRandom ends options) (short program inPrograms) job inJobs

/-- A program that is known to end passes, optimized or not; so the self-test fails on no random program,
and its result is how many of those drawn end. A limit up to the cells before the start keeps the pointer
inside the tape wherever it matters. The length is bounded because a loop of more characters can drop its
origin by a divisor that no word holds, which reduction refuses. -/
theorem no_false_alarm (engine : Engine Collector) :
    (∀ (sample : Sample) (options : CompileOptions) (limit : Nat),
      sample.endsWithin? 0 (some limit) = some true → limit ≤ Tape.start →
      (options.optimize = true → sample.source.length < UInt32.size) →
      options.input? = sample.options.input? → options.eof = sample.options.eof → options.extensions = [] →
      ∃ enough, ∀ fuel ≥ enough, ∃ log compilation,
        Validation.compileAndValidate? engine fuel sample.trial options = some { log, result := .ok compilation }) ∧
    ∀ (options : CompileOptions) (count : Nat) (seed : Int), options.extensions = [] →
      ∃ enough, ∀ fuel ≥ enough, ∃ log,
        run? engine fuel options count seed =
          some ⟨log, .ok (((Random.programs count).run (.ofSeed seed)).1.countP (·.endsWithin 50000))⟩ := by
  constructor
  · intro sample options limit ends bound short input eof plain
    exact Validation.compileAndValidate?_ok engine (Sample.ends_of_endsWithin ends bound input eof) plain short
  · intro options count seed plain
    have drawn := randomSamples_eq count (.ofSeed seed)
    generalize programs : ((Random.programs count).run (.ofSeed seed)).1 = found at drawn
    have short : ∀ program ∈ found, program.source.length < UInt32.size :=
      programs ▸ programs_short count (.ofSeed seed)
    obtain ⟨enough, passes⟩ := runJobs?_ok engine (allJobs_pass plain short)
    refine ⟨enough, fun fuel bound => ?_⟩
    obtain ⟨log, ran⟩ := passes fuel bound
    refine ⟨log, ?_⟩
    have number : ((found.map Sample.ofRandom).filter (·.endsByDefault)).length =
        found.countP (·.endsWithin 50000) := by
      rw [← List.countP_eq_length_filter, List.countP_map]
      exact List.countP_congr fun program _ => by simp [Sample.endsByDefault_ofRandom]
    simp only [run?, drawn, ran, bind, Option.bind, Except.map, number]

theorem no_false_alarm_move :
    (∃ enough, ∀ fuel ≥ enough, ∃ log compilation,
      Validation.compileAndValidate? (.emitting 42) fuel { source := "+[->+<]" } { verbose? := some true } =
        some ⟨log, .ok compilation⟩) ∧
    ∃ enough, ∀ fuel ≥ enough, ∃ log,
      run? (.emitting 42) fuel { verbose? := some true } defaultCount defaultSeed = some ⟨log, .ok
        (((Random.programs defaultCount).run (.ofSeed defaultSeed)).1.countP (·.endsWithin 50000))⟩ := by
  have final := Interpreter.runWithin_move (Tape.read?_blank Tape.covers_start)
  have ends : Sample.endsWithin? 0 (some 7) { name := "move", source := "+[->+<]" } = some true := by
    simp [Sample.endsWithin?, Interpreter.runSource?, Sample.trial, Sample.options, CompileOptions.eof, State.start,
      Literal.buffer, final]
  have trial : Sample.trial { name := "move", source := "+[->+<]" } = { source := "+[->+<]" } := rfl
  rw [← trial]
  refine ⟨?_, (no_false_alarm (.emitting 42)).2 { verbose? := some true } defaultCount defaultSeed rfl⟩
  exact (no_false_alarm (.emitting 42)).1 _ { verbose? := some true } 7 ends (by decide)
    (fun _ => by decide) rfl rfl rfl

end SelfTest
end TapeScript
