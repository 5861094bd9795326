import TapeScript.Proofs.Correctness
import TapeScript.Proofs.Host.Correspondence
import TapeScript.Validation

/-! Validation finds nothing to object to where the compiled program does what the interpreter does, and lets
pass no program whose output is another one. -/
namespace TapeScript

/-- The interpreter ends on a trial, and comes to the loops that are reduced with its pointer inside the
tape. -/
def Trial.Ends (trial : Trial) (options : CompileOptions) : Prop :=
  ∃ limit, (Interpreter.runWithin (.ofSource trial.source) options.eof limit
      (.start options.input? (Collector.ofLines trial.lines))).status ≠ .limit ∧
    Interpreter.ReducesInside (.ofSource trial.source) options.eof
      (.start options.input? (Collector.ofLines trial.lines))

section

variable {ρ : Type} [Host ρ] {engine : Engine ρ} {compilation : Compilation} {host : ρ} {fuel more : Nat}
  {outcome other : Outcome ρ}

theorem Compilation.run?_later (ends : compilation.run? engine fuel host = some outcome) (bound : fuel ≤ more) :
    compilation.run? engine more host = some outcome := by
  cases whole : compilation.holdsStatements && engine.isWhole compilation.script with
  | true =>
    rw [run?, whole] at ends ⊢
    exact ends
  | false =>
    rw [run?, whole] at ends ⊢
    obtain ⟨further, rfl⟩ := Nat.exists_eq_add_of_le bound
    obtain ⟨config, started, ends⟩ := Option.bind_eq_some_iff.mp ends
    exact Option.bind_eq_some_iff.mpr ⟨config, started, Config.run?_mono ends further⟩

/-- A program run twice ends in one way, however many steps are allowed. -/
theorem Compilation.run?_unique (ends : compilation.run? engine fuel host = some outcome)
    (endsOther : compilation.run? engine more host = some other) : outcome = other := by
  have first := Compilation.run?_later ends (Nat.le_max_left fuel more)
  exact Option.some.inj (first.symm.trans (Compilation.run?_later endsOther (Nat.le_max_right fuel more)))

end

theorem Interpreter.run?_later {ρ : Type} [Host ρ] {program : Program} {eof : EndOfInput} {start : State ρ}
    {fuel more : Nat} {final : Final ρ} (ends : run? program eof fuel start = some final) (bound : fuel ≤ more) :
    run? program eof more start = some final := by
  simp only [run?] at ends
  split at ends
  · cases ends
  · cases ends
    exact run?_of_runWithin ‹_› bound

theorem Interpreter.run?_unique {ρ : Type} [Host ρ] {program : Program} {eof : EndOfInput} {start : State ρ}
    {fuel more : Nat} {final other : Final ρ} (ends : run? program eof fuel start = some final)
    (endsOther : run? program eof more start = some other) : final = other := by
  have first := run?_later ends (Nat.le_max_left fuel more)
  exact Option.some.inj (first.symm.trans (run?_later endsOther (Nat.le_max_right fuel more)))

/-- Lines given in advance are read without fault. -/
theorem Collector.correspond_self : Host.Correspond Eq fun (_ _ : Collector) => False where
  write := by
    rintro value host _ rfl
    rfl
  debug := by
    rintro cells position host _ rfl
    rfl
  readLine := by
    rintro host _ rfl
    exact .ok _ rfl

/-- So no program fails on them that has no extensions. -/
theorem Compilation.ended_of_run? {engine : Engine Collector} {compilation : Compilation} {host : Collector}
    {fuel : Nat} {outcome : Outcome Collector} (plain : compilation.options.extensions = [])
    (ends : compilation.run? engine fuel host = some outcome) : ∃ state, outcome = .ended state := by
  have own := holdsStatements_of_plain plain
  have outcomes := compilation.run?_related Collector.correspond_self (.inl own) (.inl own)
    (meaning_related plain engine engine) fuel (Eq.refl host)
  rw [ends] at outcomes
  cases outcomes with
  | some ways =>
    cases ways with
    | ended => exact ⟨_, rfl⟩
    | failed states =>
      obtain ⟨impossible⟩ := states
      exact impossible.elim

/-- A compiled program puts out the same as the interpreter; both end. -/
def Trial.Confirms (engine : Engine Collector) (trial : Trial) (compilation : Compilation) : Prop :=
  ∃ fuel state final, compilation.run? engine fuel (Collector.ofLines trial.lines) = some (.ended state) ∧
    Interpreter.runSource? fuel none trial.source compilation.options.input? compilation.options.eof
      (Collector.ofLines trial.lines) = some final ∧
    state.host.bytes = final.state.host.bytes

namespace Validation

variable {engine : Engine Collector}

theorem differences_eq_nil_iff {expected actual : Array UInt8} :
    differences expected actual = [] ↔ expected = actual := by
  constructor
  · intro none
    apply Array.ext_getElem?
    intro position
    by_cases inside : position < max expected.size actual.size
    · have here := List.filterMap_eq_nil_iff.mp none position (List.mem_range.mpr inside)
      exact Decidable.byContradiction fun differs => by simp [differs] at here
    · rw [Array.getElem?_eq_none (by omega), Array.getElem?_eq_none (by omega)]
  · rintro rfl
    simp [differences]

theorem compare_ok_iff {verbose : Bool} {expected actual : Array UInt8} :
    (compare verbose expected actual).result = .ok () ↔ expected = actual := by
  rw [← differences_eq_nil_iff, compare]
  cases differences expected actual <;> simp

/-- A trial that the interpreter ends on passes, optimized or not. -/
theorem compileAndValidate?_ok (engine : Engine Collector) {trial : Trial} {options : CompileOptions}
    (ends : trial.Ends options)
    (plain : options.extensions = []) (short : options.optimize = true → trial.source.length < UInt32.size) :
    ∃ enough, ∀ fuel ≥ enough, ∃ log compilation,
      compileAndValidate? engine fuel trial options = some { log, result := .ok compilation } := by
  obtain ⟨limit, within, inside⟩ := ends
  obtain ⟨compilation, compiled, made, enough, found⟩ := ends_as_interpreted engine options plain short
    (Interpreter.run?_of_runWithin within (Nat.le_refl limit)) fun _ => inside
  generalize result : Interpreter.runWithin (.ofSource trial.source) options.eof limit
    (.start options.input? (Collector.ofLines trial.lines)) = final at within found
  refine ⟨max enough limit, fun fuel bound => ?_⟩
  have ran := found fuel (by omega)
  have none : compilation.options.extensions = [] := by rw [made]; exact plain
  obtain ⟨state, ended⟩ := Compilation.ended_of_run? none ran
  obtain rfl : state = final.state := by rw [← final.outcome_state, ended]; rfl
  rw [ended] at ran
  have interpreted := Interpreter.run?_of_runWithin (result ▸ within) (show limit ≤ fuel by omega)
  rw [result] at interpreted
  have input : compilation.options.input? = options.input? := by rw [made]; rfl
  have eof : compilation.options.eof = options.eof := by rw [made]; rfl
  have verdict : validate? engine fuel trial compilation =
      some (compare compilation.options.verbose final.state.host.output final.state.host.output) := by
    simp only [validate?, ran, input, eof, Interpreter.runSource?, interpreted, bind, Option.bind]
  refine ⟨compilation.log ++ (compare compilation.options.verbose final.state.host.output
    final.state.host.output).log, compilation, ?_⟩
  simp only [compileAndValidate?, compiled, verdict, compare_ok_iff.mpr rfl, bind, Option.bind]

theorem validate?_ok_iff {fuel : Nat} {trial : Trial} {compilation : Compilation} {verdict : Logged Unit}
    (ends : validate? engine fuel trial compilation = some verdict) :
    verdict.result = .ok () ↔ trial.Confirms engine compilation := by
  obtain ⟨outcome, ran, ends⟩ := Option.bind_eq_some_iff.mp ends
  cases outcome with
  | failed error last =>
    cases ends
    constructor
    · nofun
    · rintro ⟨more, state, final, ranOther, _⟩
      cases Compilation.run?_unique ran ranOther
  | ended state =>
    obtain ⟨final, interpreted, ends⟩ := Option.bind_eq_some_iff.mp ends
    cases ends
    rw [compare_ok_iff]
    constructor
    · intro same
      exact ⟨fuel, state, final, ran, interpreted, by rw [Collector.bytes, Collector.bytes, same]⟩
    · rintro ⟨more, stateOther, finalOther, ranOther, interpretedOther, same⟩
      obtain rfl := Outcome.ended.inj (Compilation.run?_unique ran ranOther)
      obtain rfl := Interpreter.run?_unique interpreted interpretedOther
      exact (Array.toList_inj.mp same).symm

/-- What is compiled and validated is a program that does what the interpreter does. -/
theorem compileAndValidate?_ok_iff {fuel : Nat} {trial : Trial} {options : CompileOptions} {compilation : Compilation}
    {log : List String} {result : Except Error Compilation}
    (ends : compileAndValidate? engine fuel trial options = some ⟨log, result⟩) :
    result = .ok compilation ↔ compile trial.source options = .ok compilation ∧ trial.Confirms engine compilation := by
  rw [compileAndValidate?] at ends
  cases compiled : compile trial.source options with
  | error =>
    rw [compiled] at ends
    cases ends
    exact ⟨nofun, nofun⟩
  | ok made =>
    rw [compiled] at ends
    obtain ⟨verdict, validated, ends⟩ := Option.bind_eq_some_iff.mp ends
    have confirms := validate?_ok_iff validated
    cases passed : verdict.result with
    | ok =>
      rw [passed] at ends confirms
      cases ends
      constructor
      · intro same
        cases same
        exact ⟨rfl, confirms.mp rfl⟩
      · rintro ⟨same, _⟩
        exact same
    | error =>
      rw [passed] at ends confirms
      cases ends
      constructor
      · nofun
      · rintro ⟨same, confirmed⟩
        cases same
        cases confirms.mpr confirmed

/-- The interpreter takes for a comment what is an instruction to a user. -/
theorem validate?_emitting (given : CompileOptions) {compilation : Compilation}
    (extensions : given.extensions = [⟨"!", "rt.write(42);"⟩]) (quiet : given.verbose = false)
    (options : compilation.options = given.withDefaults) (tokens : compilation.tokens = [.extension "!"]) :
    validate? (.emitting 42) 2 { source := "!" } compilation =
      some ⟨["at 0 undefined[exp] - 42"], .error .mismatch⟩ := by
  have ran := Compilation.run?_emitting given extensions options tokens (Collector.ofLines [])
  have silent : compilation.options.verbose = false := by rw [options]; exact quiet
  have shown : compare false #[] #[42] = ⟨["at 0 undefined[exp] - 42"], .error .mismatch⟩ := rfl
  rw [validate?, ran, silent]
  exact congrArg some shown

/-- Such a program is refused with an explanation. -/
theorem compileAndValidate?_emitting {given : CompileOptions} {compilation : Compilation}
    (plain : given.optimize = false) (extensions : given.extensions = [⟨"!", "rt.write(42);"⟩])
    (quiet : given.verbose = false) (compiled : compile "!" given = .ok compilation)
    (tokens : compilation.tokens = [.extension "!"]) :
    compileAndValidate? (.emitting 42) 2 { source := "!" } given =
      some ⟨["at 0 undefined[exp] - 42", "1 instructions -> 1 statements; loops: 0 reduced, 0 kept",
        compilation.script, "Failing program:  !"], .error .mismatch⟩ := by
  have options := (tokens_of_plain plain compiled).2
  have silent : compilation.options.verbose = false := by rw [options]; exact quiet
  obtain ⟨described, stats⟩ : compilation.description = [] ∧ compilation.stats = ⟨1, 1, 1, 0, 0, 1⟩ := by
    obtain ⟨parsed, stages, _, _, _, made, described, _, rfl⟩ := compile_ok_iff.mp compiled
    rw [plain] at made described
    cases made
    cases described
    change parsed = [.extension "!"] at tokens
    rw [tokens]
    exact ⟨rfl, rfl⟩
  have told : compilation.fullLog = ["1 instructions -> 1 statements; loops: 0 reduced, 0 kept"] := by
    rw [Compilation.fullLog, Compilation.summary, described, stats]
    rfl
  rw [compileAndValidate?, compiled]
  simp only [validate?_emitting given extensions quiet options tokens, Compilation.log, silent, told, quiet, bind,
    Option.bind]
  rfl

end Validation
end TapeScript
