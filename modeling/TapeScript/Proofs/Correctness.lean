import Mathlib.Algebra.Ring.Int.Defs
import TapeScript.Host.Collector
import TapeScript.Proofs.Interpreter.Reach
import TapeScript.Proofs.Machine.Engine

/-! A compiled program does what the interpreter does with its source text. Both are told by one tree:
the interpreter goes along the tree of the instructions, the machine along what compilation makes of it. -/
namespace TapeScript

variable {ρ : Type}

namespace Compilation

variable {compilation : Compilation} {given : CompileOptions} {code : Code}

/-- The program of a stream starts with the whole of its tree. -/
theorem start?_of_reads (reads : Reads compilation.tokens code) (options : compilation.options = given.withDefaults)
    (host : ρ) : compilation.start? host = some ⟨code, [], .start given.input? host⟩ := by
  simp [start?, reads.ofTokens?, options, CompileOptions.withDefaults]

theorem run?_of_reads [Host ρ] (plain : given.extensions = []) (reads : Reads compilation.tokens code)
    (options : compilation.options = given.withDefaults) (engine : Engine ρ) (fuel : Nat) (host : ρ) :
    compilation.run? engine fuel host =
      Config.run? ⟨given.eof, Extension.perform engine given.extensions⟩ fuel ⟨code, [], .start given.input? host⟩ := by
  have own : compilation.holdsStatements = false := holdsStatements_of_plain (by rw [options]; exact plain)
  rw [run?_stepwise (.inl own), start?_of_reads reads options, meaning, options]
  rfl

end Compilation

variable [Host ρ]

/-- A run of the interpreter on the tree that is compiled. The guard is asked where the run comes to the
beginning of a loop that is no idiom. -/
private theorem runs_parsed (guard : Code → State ρ → Prop) (meaning : Meaning ρ) {program : Interpreter.Program}
    {raw : Code} {literal? : Option Literal} {host : ρ} {fuel : Nat} {final : Interpreter.Final ρ}
    (singles : raw.Each fun token => token.amount = 1) (spans : Interpreter.Spans program false 0 raw program.code.size)
    (ends : Interpreter.run? program meaning.eof fuel (.start literal? host) = some final)
    (allowed : Interpreter.Config.Allowed (fun body state => body.idiom? = none → guard body.idiomize state) program
      meaning.eof ⟨0, 0, .start literal? host⟩) :
    ∃ whole : Behaviour ρ, raw.idiomize.skipLoops.Runs guard meaning 0 (.start literal? host) whole ∧
      whole.outcome = final.outcome := by
  obtain ⟨whole, runs, same⟩ := Interpreter.runs_of_run? spans ends allowed
  have idioms := (Code.runs_idiomize singles).mpr runs
  exact ⟨whole, idioms.skipLoops (State.start_unset literal? host), same⟩

/-- What the interpreter does with a source text the compiled program does. Without optimization
nothing is asked for; with it, that the pointer is inside the tape where a reduced loop begins. -/
theorem ends_as_interpreted (engine : Engine ρ) {source : String} (given : CompileOptions) {host : ρ} {fuel : Nat}
    {final : Interpreter.Final ρ} (plain : given.extensions = [])
    (short : given.optimize = true → source.length < UInt32.size)
    (ends : Interpreter.run? (.ofSource source) given.eof fuel (.start given.input? host) = some final)
    (inside : given.optimize = true →
      Interpreter.ReducesInside (.ofSource source) given.eof (.start given.input? host)) :
    ∃ compilation, compile source given = .ok compilation ∧ compilation.options = given.withDefaults ∧
      ∃ enough, ∀ fuel ≥ enough, compilation.run? engine fuel host = some final.outcome := by
  obtain ⟨raw, grows, spans⟩ := Interpreter.exists_tree source
  have singles := Interpreter.singles_of_grows grows
  have accepted : Extension.check given.extensions = .ok () := by rw [plain]; rfl
  rw [← plain] at grows
  obtain ⟨compilation, compiled, options, reads⟩ := compile_ok given accepted grows short
  let meaning : Meaning ρ := ⟨given.eof, Extension.perform engine given.extensions⟩
  have runs : ∃ whole : Behaviour ρ,
      (raw.compiled given.optimize).Runs Code.Unguarded meaning 0 (.start given.input? host) whole ∧
        whole.outcome = final.outcome := by
    cases choice : given.optimize with
    | false => exact runs_parsed Code.Unguarded meaning singles spans ends fun _ _ _ _ _ _ _ _ _ _ => trivial
    | true =>
      obtain ⟨each, weight⟩ := each_inner given.eof accepted grows
      obtain ⟨whole, runs, same⟩ := runs_parsed Code.StartsInside meaning singles spans ends (inside choice).allowed
      have light : raw.idiomize.skipLoops.weight < UInt32.size := Nat.lt_of_le_of_lt weight (short choice)
      exact ⟨whole, Optimization.runs_optimized each light runs, same⟩
  obtain ⟨whole, runs, same⟩ := runs
  obtain ⟨enough, found⟩ := Config.ends_of_runs runs
  refine ⟨compilation, compiled, options, enough, fun fuel bound => ?_⟩
  rw [Compilation.run?_of_reads plain reads options, (found fuel bound).1, same]

/-- An optimized program is correct: if the interpreter ends, and comes to every loop that is reduced
with the pointer inside the tape, then the program compiled from a text without extensions ends as the
interpreter does. The state it ends in is the same in all, with the tape, the pointer, what was put out and
the lines that are left. Leading loops are among those of the condition, but the pointer is then at its
start. -/
theorem optimized_correct (engine : Engine ρ) (source : String) (given : CompileOptions) (host : ρ) (fuel : Nat)
    (final : Interpreter.Final ρ) (short : source.length < UInt32.size)
    (ends : Interpreter.runSource? fuel none source given.input? given.eof host = some final)
    (inside : Interpreter.ReducesInside (.ofSource source) given.eof (.start given.input? host)) :
    ∃ compilation, compile source { given with extensions? := none, optimize? := some true } = .ok compilation ∧
      ∃ enough, ∀ fuel ≥ enough, compilation.run? engine fuel host = some final.outcome := by
  let options : CompileOptions := { given with extensions? := none, optimize? := some true }
  obtain ⟨compilation, compiled, _, found⟩ :=
    ends_as_interpreted engine options rfl (fun _ => short) ends fun _ => inside
  exact ⟨compilation, compiled, found⟩

/-- The interpreter on a counter that is moved to the next cell. -/
theorem Interpreter.runWithin_move {tape : Tape} {start : Int} (zero : tape.read? start = some 0) :
    Interpreter.runWithin (.ofSource "+[->+<]") .halt 7 ⟨tape, start, [], Collector.ofLines []⟩ =
      ⟨.done, 7, ⟨tape.add (start + 1) 1, start, [], Collector.ofLines []⟩⟩ := by
  have code : (Interpreter.Program.ofSource "+[->+<]").code =
      #[.inc, .loopOpen, .dec, .right, .inc, .left, .loopClose] := by decide
  have back : start + 1 + -1 = start := by omega
  have apart : ¬start = start + 1 := by omega
  simp [Interpreter.runWithin, Interpreter.Config.advance, Interpreter.Config.step, code, Interpreter.Program.jump,
    State.add, State.move, State.isSet, Tape.isSet, Tape.read, zero, back, apart, Tape.add_add]

theorem optimized_correct_move :
    ∃ compilation, compile "+[->+<]" { extensions? := none, optimize? := some true } = .ok compilation ∧
      ∃ enough, ∀ fuel ≥ enough, compilation.run? (.emitting 42) fuel (Collector.ofLines []) =
        some (.ended ((State.start none (Collector.ofLines [])).add 1 1)) := by
  have final := Interpreter.runWithin_move (Tape.read?_blank Tape.covers_start)
  have inside : (Interpreter.runWithin (.ofSource "+[->+<]") .halt 7
      (State.start none (Collector.ofLines []))).status ≠ .limit := by
    rw [State.start, Literal.buffer, final]
    simp
  have ends := Interpreter.run?_of_runWithin inside (Nat.le_refl 7)
  rw [State.start, Literal.buffer, final] at ends
  exact optimized_correct (.emitting 42) "+[->+<]" {} (Collector.ofLines []) 7 _ (by decide) ends
    (Interpreter.reducesInside_of_short inside (by decide))

/-- Without optimization compilation is exact on every text: the program ends if and only if the
interpreter does, and as the interpreter does. The pointer may leave the tape. -/
theorem plain_exact (engine : Engine ρ) (source : String) (given : CompileOptions) (host : ρ) :
    ∃ compilation, compile source { given with extensions? := none, optimize? := some false } = .ok compilation ∧
      ∀ outcome : Outcome ρ, (∃ fuel, compilation.run? engine fuel host = some outcome) ↔
        ∃ fuel final, Interpreter.runSource? fuel none source given.input? given.eof host = some final ∧
          final.outcome = outcome := by
  let options : CompileOptions := { given with extensions? := none, optimize? := some false }
  obtain ⟨raw, grows, spans⟩ := Interpreter.exists_tree source
  have optimize (choice : options.optimize = true) : source.length < UInt32.size := by cases choice
  obtain ⟨compilation, compiled, made, reads⟩ := compile_ok options rfl grows optimize
  refine ⟨compilation, compiled, fun outcome => ⟨?_, ?_⟩⟩
  · rintro ⟨fuel, ends⟩
    rw [Compilation.run?_of_reads rfl reads made] at ends
    obtain ⟨whole, runs, rfl, _⟩ := Config.runs_of_ends ends fun _ _ _ => trivial
    have idioms := runs.withLoops (State.start_unset given.input? host)
    have tree := (Code.runs_idiomize (Interpreter.singles_of_grows grows)).mp idioms
    obtain ⟨enough, found⟩ := Interpreter.run?_of_runs spans tree
    obtain ⟨final, ends, same⟩ := found enough (Nat.le_refl _)
    exact ⟨enough, final, ends, same⟩
  · rintro ⟨fuel, final, ends, rfl⟩
    have impossible (choice : options.optimize = true) :
        Interpreter.ReducesInside (.ofSource source) options.eof (.start options.input? host) := by cases choice
    obtain ⟨other, compiledOther, _, enough, found⟩ := ends_as_interpreted engine options rfl optimize ends impossible
    cases compiled.symm.trans compiledOther
    exact ⟨enough, found enough (Nat.le_refl _)⟩

/-- Optimization does not change what a program does that ends, whatever its extensions mean: it ends in
the same way, and has executed the same extensions, each on the same tape and pointer. The pointer has to be
inside the tape where the program starts a loop that is reduced. -/
theorem optimize_preserves (source : String) (given : CompileOptions) (extension : Option String → State ρ → Step ρ)
    (host : ρ) (short : source.length < UInt32.size) (accepted : Extension.check given.extensions = .ok ()) :
    ∃ plain optimized first second,
      compile source { given with optimize? := some false } = .ok plain ∧
      compile source { given with optimize? := some true } = .ok optimized ∧
      plain.start? host = some first ∧ optimized.start? host = some second ∧
      ∀ fuel outcome, first.run? ⟨given.eof, extension⟩ fuel = some outcome →
        (∀ body state, Config.Starts ⟨given.eof, extension⟩ first body state → body.isReduced = true →
          state.tape.Covers state.pointer) →
        ∃ enough, ∀ fuelAfter ≥ enough, second.run? ⟨given.eof, extension⟩ fuelAfter = some outcome ∧
          second.occurrences ⟨given.eof, extension⟩ fuelAfter = first.occurrences ⟨given.eof, extension⟩ fuel := by
  obtain ⟨raw, grows⟩ := Source.exists_grows given.extensions source
  obtain ⟨plain, compiled, options, reads⟩ :=
    compile_ok { given with optimize? := some false } accepted grows (fun choice => by cases choice)
  obtain ⟨optimized, compiledOther, optionsOther, readsOther⟩ :=
    compile_ok { given with optimize? := some true } accepted grows (fun _ => short)
  obtain ⟨each, weight⟩ := each_inner given.eof accepted grows
  refine ⟨plain, optimized, _, _, compiled, compiledOther, Compilation.start?_of_reads reads options host,
    Compilation.start?_of_reads readsOther optionsOther host, ?_⟩
  intro fuel outcome ends inside
  obtain ⟨whole, runs, rfl, seen⟩ := Config.runs_of_ends ends inside
  have light : raw.idiomize.skipLoops.weight < UInt32.size := Nat.lt_of_le_of_lt weight short
  obtain ⟨enough, found⟩ := Config.ends_of_runs (Optimization.runs_optimized each light runs)
  refine ⟨enough, fun fuelAfter bound => ?_⟩
  rw [← seen]
  exact found fuelAfter bound

/-- An extension that puts out a number, before a counter that is moved. -/
theorem optimize_preserves_write :
    ∃ optimized second enough,
      compile "#+[->+<]" { extensions? := some [.dump], optimize? := some true } = .ok optimized ∧
      optimized.start? (Collector.ofLines []) = some second ∧
      second.run? ⟨.halt, fun _ state => .next (state.emit 7)⟩ enough =
        some (.ended ((State.start none (Host.write 7 (Collector.ofLines []))).add 1 1)) ∧
      second.occurrences ⟨.halt, fun _ state => .next (state.emit 7)⟩ enough =
        [⟨some "#", 0, .blank, Tape.start⟩] := by
  obtain ⟨plain, optimized, first, second, compiled, compiledOther, start, startOther, preserves⟩ :=
    optimize_preserves "#+[->+<]" { extensions? := some [.dump] } (fun _ state => .next (state.emit 7))
      (Collector.ofLines []) (by decide) rfl
  obtain ⟨parses, options⟩ := tokens_of_plain rfl compiled
  have tokens : Source.parse [.dump] "#+[->+<]" = .ok [.extension "#", .single .inc, .single .loopOpen, .single .dec,
      .single .right, .single .inc, .single .left, .single .loopClose] := rfl
  have tokens := Except.ok.inj (tokens.symm.trans parses)
  let body : Code :=
    .token (.single .dec) (.token (.single .right) (.token (.single .inc) (.token (.single .left) .halt)))
  let code : Code := .token (.extension "#") (.token (.single .inc) (.loop body .halt))
  let meaning : Meaning Collector := ⟨.halt, fun _ state => .next (state.emit 7)⟩
  have whole : first = ⟨code, [], .start none (Collector.ofLines [])⟩ := by
    rw [Compilation.start?, ← tokens, options] at start
    exact (Option.some.inj start).symm
  have runs (tape : Tape) (start : Int) (zero : tape.read? start = some 0) (host : Collector) :
      Config.run? meaning 10 ⟨code, [], ⟨tape, start, [], host⟩⟩ =
        some (.ended ⟨tape.add (start + 1) 1, start, [], Host.write 7 host⟩) ∧
      Config.occurrences meaning 10 ⟨code, [], ⟨tape, start, [], host⟩⟩ = [⟨some "#", 0, tape, start⟩] ∧
      ∀ inner last, Config.Starts meaning ⟨code, [], ⟨tape, start, [], host⟩⟩ inner last →
        last = ⟨tape.add start 1, start, [], Host.write 7 host⟩ := by
    have back : start + 1 + -1 = start := by omega
    have apart : ¬start = start + 1 := by omega
    refine ⟨?_, ?_, fun inner last => ?_⟩
    · simp [Config.run?, Config.advance, Config.step, Token.perform, Token.extension, Token.single, Token.counted,
        State.emit, State.add, State.move, State.isSet, Tape.isSet, Tape.read, Tape.add_add, zero, back, apart, body,
        code, meaning]
    · simp [Config.occurrences, Config.occurrence?, Config.step, Token.perform, Token.extension, Token.single,
        Token.counted, State.emit, State.add, State.move, State.isSet, Tape.isSet, Tape.read, Tape.add_add, zero, back,
        apart, body, code, meaning, Code.extensions, Config.following]
    · simp [Config.starts_token, Config.starts_loop, Config.starts_back, Config.not_starts_end, Config.step,
        Token.perform, Token.extension, Token.single, Token.counted, State.emit, State.add, State.move, State.isSet,
        Tape.isSet, Tape.read, Tape.add_add, zero, body, code, meaning]
      rintro _ rfl
      rfl
  obtain ⟨ends, seen, starts⟩ := runs .blank Tape.start (Tape.read?_blank Tape.covers_start) (Collector.ofLines [])
  rw [whole] at preserves
  obtain ⟨enough, found⟩ := preserves 10 _ ends fun inner last started _ => by
    rw [starts inner last started]
    simpa [Tape.Covers] using Tape.covers_start
  obtain ⟨endsAfter, seenAfter⟩ := found enough (Nat.le_refl _)
  exact ⟨optimized, second, enough, compiledOther, startOther, endsAfter, seenAfter.trans seen⟩

end TapeScript
