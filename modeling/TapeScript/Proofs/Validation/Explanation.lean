import TapeScript.Proofs.Validation
import TapeScript.Proofs.Validation.Causes

/-! What validation says about what it refuses: where the outputs differ, and what the compiler has to say
about the program that failed. -/
namespace TapeScript

namespace Validation

variable {verbose : Bool} {expected actual : Array UInt8} {position : Nat} {trial : Trial} {options : CompileOptions}
  {engine : Engine Collector} {compilation : Compilation} {verdict : Logged Unit}

/-- The positions at which two outputs differ. -/
def positions (expected actual : Array UInt8) : List Nat :=
  (List.range (max expected.size actual.size)).filter fun position => expected[position]? ≠ actual[position]?

theorem differences_eq_map (expected actual : Array UInt8) : differences expected actual =
    (positions expected actual).map fun position => ⟨position, expected[position]?, actual[position]?⟩ := by
  rw [differences, positions, ← List.filterMap_eq_map, List.filterMap_filter]
  congr 1
  funext position
  by_cases same : expected[position]? = actual[position]? <;> simp [same]

theorem positions_increase (expected actual : Array UInt8) : (positions expected actual).Pairwise (· < ·) :=
  List.pairwise_lt_range.filter _

/-- A position beyond the end of one output counts as well. -/
theorem mem_positions_iff : position ∈ positions expected actual ↔ expected[position]? ≠ actual[position]? := by
  rw [positions, List.mem_filter, List.mem_range]
  constructor
  · rintro ⟨_, differs⟩
    simpa using differs
  · intro differs
    refine ⟨?_, by simpa using differs⟩
    refine Decidable.byContradiction fun beyond => differs ?_
    rw [Array.getElem?_eq_none (by omega), Array.getElem?_eq_none (by omega)]

/-- The verdict on two outputs. The same bytes are accepted; of others at most six of the positions are shown
at which they differ, the first ones in their order. -/
structure Judges (verbose : Bool) (expected actual : Array UInt8) (verdict : Logged Unit) : Prop where
  accepts : verdict.result = .ok () ↔
    expected.size = actual.size ∧ ∀ position : Nat, expected[position]? = actual[position]?
  refuses : verdict.result = .ok () ∨ verdict.result = .error .mismatch
  explains : ∃ differing : List Nat, differing.Pairwise (· < ·) ∧
    (∀ position, position ∈ differing ↔ expected[position]? ≠ actual[position]?) ∧
    verdict.log = (if verbose then ["Test output " ++ Text.quoted (Text.latin1 actual.toList)] else []) ++
      (differing.take 6).map fun position =>
        s!"at {position} {byteText expected[position]?}[exp] - {byteText actual[position]?}"

theorem judges_compare (verbose : Bool) (expected actual : Array UInt8) :
    Judges verbose expected actual (compare verbose expected actual) where
  accepts := by
    rw [compare_ok_iff]
    constructor
    · rintro rfl
      exact ⟨rfl, fun _ => rfl⟩
    · rintro ⟨_, same⟩
      exact Array.ext_getElem? same
  refuses := by
    rw [compare]
    cases (differences expected actual).isEmpty
    · exact .inr rfl
    · exact .inl rfl
  explains := by
    refine ⟨positions expected actual, positions_increase expected actual, fun _ => mem_positions_iff, ?_⟩
    rw [compare, differences_eq_map, ← List.map_take, List.map_map]
    rfl

/-- Two runs that end are compared, however many steps are allowed as long as they are enough. -/
theorem validate?_compares {fuel more : Nat} {state : State Collector} {final : Interpreter.Final Collector}
    (ran : compilation.run? engine fuel (Collector.ofLines trial.lines) = some (.ended state))
    (interpreted : Interpreter.runSource? more none trial.source compilation.options.input? compilation.options.eof
      (Collector.ofLines trial.lines) = some final) :
    let verdict := compare compilation.options.verbose final.state.host.output state.host.output
    (∃ enough, ∀ fuel ≥ enough, validate? engine fuel trial compilation = some verdict) ∧
      ∀ fuel other, validate? engine fuel trial compilation = some other → other = verdict := by
  constructor
  · refine ⟨max fuel more, fun enough bound => ?_⟩
    have ranLater := Compilation.run?_later ran (show fuel ≤ enough by omega)
    have interpretedLater : Interpreter.runSource? enough none trial.source compilation.options.input?
        compilation.options.eof (Collector.ofLines trial.lines) = some final :=
      Interpreter.run?_later interpreted (show more ≤ enough by omega)
    rw [validate?, ranLater, interpretedLater]
    rfl
  · intro fuel other validated
    obtain ⟨outcome, ranOther, validated⟩ := Option.bind_eq_some_iff.mp validated
    obtain rfl := Compilation.run?_unique ran ranOther
    obtain ⟨finalOther, interpretedOther, validated⟩ := Option.bind_eq_some_iff.mp validated
    obtain rfl := Interpreter.run?_unique interpreted interpretedOther
    exact (Option.some.inj validated).symm

/-- How the lines begin in which optimization tells of its stages. -/
def stageHeads : List String := ["fold: ", "repeats: ", "loops: ", "fused: "]

/-- Whether a line is one of those in which compilation tells of its stages. The last of them begins with a
number. -/
def isStageLine (line : String) : Bool :=
  stageHeads.any (fun head => head.toList.isPrefixOf line.toList) || line.toList.head?.any Char.isDigit

theorem isStageLine_of_head {head : String} (member : head ∈ stageHeads) (rest : String) :
    isStageLine (head ++ rest) = true := by
  rw [isStageLine, Bool.or_eq_true]
  refine .inl (List.any_eq_true.mpr ⟨head, member, ?_⟩)
  simp

theorem isStageLine_of_number (n : Nat) (rest : String) : isStageLine (toString n ++ rest) = true := by
  rw [isStageLine, Bool.or_eq_true]
  refine .inr ?_
  rw [String.toList_append, Nat.toString_eq_repr, Nat.repr_eq_ofList_toDigits, String.toList_ofList]
  cases digits : Nat.toDigits 10 n with
  | nil => exact absurd digits Nat.toDigits_ne_nil
  | cons digit others =>
    have member : digit ∈ Nat.toDigits 10 n := by simp [digits]
    simpa using Nat.isDigit_of_mem_toDigits (by decide) (by decide) member

/-- The other lines of a log begin otherwise. -/
theorem not_isStageLine {head : String}
    (other : head ∈ ["Test output ", "at ", "((rt) => \x7b\n", "Failing program:  "]) (rest : String) :
    isStageLine (head ++ rest) = false := by
  simp only [List.mem_cons, List.not_mem_nil, or_false] at other
  rcases other with rfl | rfl | rfl | rfl <;> simp [isStageLine, stageHeads, List.isPrefixOf]

theorem isStageLine_summary (compilation : Compilation) : isStageLine compilation.summary = true := by
  rw [Compilation.summary]
  simp only [String.append_assoc]
  exact isStageLine_of_number _ _

theorem isStageLine_describe {stages : Stages} {description : List String}
    (described : stages.describe = .ok description) : ∀ line ∈ description, isStageLine line = true := by
  obtain ⟨text, _, described⟩ := bind_ok_iff.mp described
  cases described
  simp only [List.forall_mem_cons, String.append_assoc]
  exact ⟨isStageLine_of_head (by decide) _, isStageLine_of_head (by decide) _, isStageLine_of_head (by decide) _,
    isStageLine_of_head (by decide) _, by simp⟩

theorem isStageLine_fullLog {source : String} {given : CompileOptions}
    (compiled : compile source given = .ok compilation) : ∀ line ∈ compilation.fullLog, isStageLine line = true := by
  obtain ⟨parsed, stages, description, script, _, _, described, _, rfl⟩ := compile_ok_iff.mp compiled
  intro line member
  rcases List.mem_append.mp member with inside | last
  · cases choice : given.optimize with
    | true =>
      rw [choice] at described
      exact isStageLine_describe described line inside
    | false =>
      rw [choice] at described
      cases described
      simp at inside
  · rw [List.mem_singleton.mp last]
    exact isStageLine_summary _

theorem not_isStageLine_script {source : String} {given : CompileOptions}
    (compiled : compile source given = .ok compilation) : isStageLine compilation.script = false := by
  obtain ⟨parsed, stages, description, script, _, _, _, emitted, rfl⟩ := compile_ok_iff.mp compiled
  obtain ⟨text, _, emitted⟩ := bind_ok_iff.mp emitted
  cases emitted
  rw [Script.function, String.append_assoc]
  exact not_isStageLine (by decide) _

theorem not_isStageLine_compare : ∀ line ∈ (compare verbose expected actual).log, isStageLine line = false := by
  intro line member
  rcases List.mem_append.mp member with output | shown
  · cases verbose with
    | true =>
      rw [List.mem_singleton.mp output]
      exact not_isStageLine (by decide) _
    | false => simp at output
  · obtain ⟨difference, _, rfl⟩ := List.mem_map.mp shown
    rw [Difference.text]
    simp only [String.append_assoc]
    exact not_isStageLine (by decide) _

/-- The option to tell of the stages changes nothing but what is told. -/
theorem compile_verbose {source : String} {given : CompileOptions}
    (compiled : compile source given = .ok compilation) :
    compile source { given with verbose? := some true } =
      .ok { compilation with options := { compilation.options with verbose? := some true } } := by
  obtain ⟨parsed, stages, description, script, parses, made, described, emitted, rfl⟩ := compile_ok_iff.mp compiled
  exact compile_ok_iff.mpr ⟨parsed, stages, description, script, parses, made, described, emitted, rfl⟩

/-- What is logged of a trial that is refused: the stages of a compilation that tells of them, before or after
the verdict, then the program and its source. -/
structure Diagnoses (trial : Trial) (options : CompileOptions) (verdict : Logged Unit) (log : List String)
    (compilation again : Compilation) : Prop where
  compiled : compile trial.source options = .ok compilation
  compiledAgain : compile trial.source { options with verbose? := some true } = .ok again
  script : again.script = compilation.script
  stages : log.filter isStageLine = again.log
  order : log = (if options.verbose then again.log else []) ++ verdict.log ++
    (if options.verbose then [] else again.log) ++ [compilation.script, "Failing program:  " ++ trial.source]

/-- A verdict compares two outputs, or there is no output to compare because the program has failed. -/
theorem exists_compare {fuel : Nat} (validated : validate? engine fuel trial compilation = some verdict) :
    (∃ error, verdict = ⟨[], .error error⟩) ∨
      ∃ expected actual, verdict = compare compilation.options.verbose expected actual := by
  obtain ⟨outcome, _, validated⟩ := Option.bind_eq_some_iff.mp validated
  cases outcome with
  | failed error => exact .inl ⟨error, (Option.some.inj validated).symm⟩
  | ended state =>
    obtain ⟨final, _, validated⟩ := Option.bind_eq_some_iff.mp validated
    exact .inr ⟨_, _, (Option.some.inj validated).symm⟩

/-- No line of a verdict looks like one about the stages. -/
theorem not_isStageLine_verdict {fuel : Nat} (validated : validate? engine fuel trial compilation = some verdict) :
    ∀ line ∈ verdict.log, isStageLine line = false := by
  rcases exists_compare validated with ⟨error, rfl⟩ | ⟨expected, actual, rfl⟩
  · simp
  · exact not_isStageLine_compare

theorem exists_diagnoses {fuel : Nat} {log : List String}
    (refused : compileAndValidate? engine fuel trial options = some ⟨log, .error .mismatch⟩) :
    ∃ compilation again verdict, validate? engine fuel trial compilation = some verdict ∧
      verdict.result = .error .mismatch ∧ Diagnoses trial options verdict log compilation again := by
  rw [compileAndValidate?] at refused
  cases compiled : compile trial.source options with
  | error cause =>
    rw [compiled] at refused
    cases refused
    -- Compilation gives up for causes of its own, so the mismatch was found later.
    cases compile_staged _ _ _ compiled
  | ok compilation =>
    rw [compiled] at refused
    obtain ⟨verdict, validated, refused⟩ := Option.bind_eq_some_iff.mp refused
    cases passed : verdict.result with
    | ok =>
      rw [passed] at refused
      cases refused
    | error cause =>
      rw [passed] at refused
      cases refused
      have verbose : compilation.options.verbose = options.verbose := by
        rw [options_of_compile compiled]
        rfl
      have own : compilation.log = if options.verbose then compilation.fullLog else [] := by
        rw [Compilation.log, verbose]
      have stages := List.filter_eq_self.mpr (isStageLine_fullLog compiled)
      have judged : verdict.log.filter isStageLine = [] :=
        List.filter_eq_nil_iff.mpr fun line member => by simp [not_isStageLine_verdict validated line member]
      have failing : isStageLine ("Failing program:  " ++ trial.source) = false := not_isStageLine (by decide) _
      -- The stages stand before the verdict or behind it, as the options choose; no other line looks like one.
      refine ⟨compilation, _, verdict, validated, passed, compiled, compile_verbose compiled, rfl, ?_, ?_⟩
      · rw [own]
        cases options.verbose <;>
          simp [List.filter_append, stages, judged, not_isStageLine_script compiled, failing] <;> rfl
      · rw [own]
        rfl

/-- The verdict on two runs that end is by their bytes alone, and a program is refused with an explanation:
the first positions at which the outputs differ, every stage of the compilation once, the program that the
options compile to, and its source. -/
theorem mismatch_explained :
    (∀ (engine : Engine Collector) (trial : Trial) (compilation : Compilation) (fuel more : Nat)
        (state : State Collector) (final : Interpreter.Final Collector),
      compilation.run? engine fuel (Collector.ofLines trial.lines) = some (.ended state) →
      Interpreter.runSource? more none trial.source compilation.options.input? compilation.options.eof
        (Collector.ofLines trial.lines) = some final →
      ∃ verdict, Judges compilation.options.verbose final.state.host.output state.host.output verdict ∧
        (∃ enough, ∀ fuel ≥ enough, validate? engine fuel trial compilation = some verdict) ∧
        ∀ fuel other, validate? engine fuel trial compilation = some other → other = verdict) ∧
    (∀ (engine : Engine Collector) (fuel : Nat) (trial : Trial) (options : CompileOptions) (log : List String),
      compileAndValidate? engine fuel trial options = some ⟨log, .error .mismatch⟩ →
      ∃ compilation again verdict, validate? engine fuel trial compilation = some verdict ∧
        verdict.result = .error .mismatch ∧ Diagnoses trial options verdict log compilation again) := by
  constructor
  · intro engine trial compilation fuel more state final ran interpreted
    exact ⟨_, judges_compare _ _ _, validate?_compares ran interpreted⟩
  · intro engine fuel trial options log refused
    exact exists_diagnoses refused

/-- A user puts out a byte that the interpreter does not. -/
theorem mismatch_explained_extension :
    ∃ compilation again verdict,
      Judges false #[] #[42] verdict ∧
      Diagnoses { source := "!" } { extensions? := some [⟨"!", "rt.write(42);"⟩], optimize? := some false } verdict
        ["at 0 undefined[exp] - 42", "1 instructions -> 1 statements; loops: 0 reduced, 0 kept", compilation.script,
          "Failing program:  !"] compilation again := by
  let options : CompileOptions := { extensions? := some [⟨"!", "rt.write(42);"⟩], optimize? := some false }
  let engine : Engine Collector := .emitting 42
  let host := Collector.ofLines []
  obtain ⟨compilation, compiled, made, tokens⟩ := @exists_statement options rfl rfl
  have ran : compilation.run? engine 2 host = some (.ended ((State.start none host).emit 42)) :=
    Compilation.run?_emitting options rfl made tokens host
  have interpreted : Interpreter.runSource? 2 none "!" compilation.options.input? compilation.options.eof host =
      some ⟨.done, 0, .start none host⟩ := by
    rw [made]
    rfl
  have refused := compileAndValidate?_emitting rfl rfl rfl compiled tokens
  obtain ⟨verdictOf, judges, _, unique⟩ :=
    mismatch_explained.1 engine { source := "!" } compilation 2 2 _ _ ran interpreted
  obtain ⟨_, again, other, validated, _, diagnoses⟩ := mismatch_explained.2 engine 2 { source := "!" } options _ refused
  obtain rfl := Except.ok.inj (compiled.symm.trans diagnoses.compiled)
  obtain rfl := unique 2 other validated
  have quiet : compilation.options.verbose = false := by rw [made]; rfl
  rw [quiet] at judges
  exact ⟨compilation, again, other, judges, diagnoses⟩

end Validation
end TapeScript
