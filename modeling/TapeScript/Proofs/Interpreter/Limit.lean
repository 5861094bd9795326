import TapeScript.Proofs.Host.Supply
import TapeScript.Proofs.Validation
import TapeScript.Sample

/-! A limit of instructions cuts a run short and does not alter it. The run is told instruction by instruction, with
no limit in sight; a limited run is all of it, or stops in the state that it is in after as many instructions. -/
namespace TapeScript.Interpreter

variable {ρ : Type} [Host ρ] {program : Program} {eof : EndOfInput}

namespace Config

/-- What a run comes to, by the number of instructions before. -/
inductive Comes (program : Program) (eof : EndOfInput) (start : Config ρ) : Nat → Config ρ → Prop where
  | start : Comes program eof start 0 start
  | step {count : Nat} {config next : Config ρ} (comes : Comes program eof start count config)
      (step : config.step program eof = .inl next) : Comes program eof start (count + 1) next

/-- A run comes to its end. -/
def Ends (program : Program) (eof : EndOfInput) (start : Config ρ) (final : Final ρ) : Prop :=
  ∃ count config, Comes program eof start count config ∧ config.step program eof = .inr final

variable {start config next : Config ρ} {final other : Final ρ} {count limit : Nat}

theorem steps_of_step (step : config.step program eof = .inl next) : next.steps = config.steps + 1 := by
  obtain ⟨position, steps, state⟩ := config
  simp only [Config.step] at step
  split at step
  case h_9 =>
    split at step <;> cases step
    rfl
  all_goals cases step <;> rfl

theorem pointer_input (state : State ρ) (mode : EndOfInput) : (state.input mode).state.pointer = state.pointer := by
  have read := (readByte_tape state).2
  rw [State.input]
  generalize state.readByte = found at read
  obtain ⟨_ | _ | byte, after⟩ := found
  · exact read
  · cases mode <;> exact read
  · exact read

/-- A run ends behind its last instruction, or with an instruction that counts. The pointer stays where it is. -/
theorem last_cases (last : config.step program eof = .inr final) :
    (program.code.size ≤ config.position ∧ final = ⟨.done, config.steps, config.state⟩) ∨
      (config.position < program.code.size ∧ final.steps = config.steps + 1 ∧
        final.state.pointer = config.state.pointer) := by
  obtain ⟨position, steps, state⟩ := config
  simp only [Config.step] at last
  split at last
  case h_1 passed =>
    cases last
    exact .inl ⟨Array.getElem?_eq_none_iff.mp passed, rfl⟩
  case h_9 here =>
    have inside : position < program.code.size := (Array.getElem?_eq_some_iff.mp here).1
    have pointer := pointer_input state eof
    cases read : state.input eof with
    | next => simp [read] at last
    | ended after | failed error after =>
      rw [read] at last pointer
      cases last
      exact .inr ⟨inside, rfl, pointer⟩
  all_goals cases last

theorem Comes.steps_eq (comes : Comes program eof start count config) : config.steps = start.steps + count := by
  induction comes with
  | start => rfl
  | step _ step ih => rw [steps_of_step step, ih, Nat.add_assoc]

theorem advance_one (config : Config ρ) : config.advance program eof 1 = config.step program eof := by
  rw [advance]
  cases config.step program eof <;> rfl

theorem advance_add (reaches : start.advance program eof count = .inl config) (more : Nat) :
    start.advance program eof (count + more) = config.advance program eof more := by
  induction count generalizing start with
  | zero =>
    cases reaches
    rw [Nat.zero_add]
  | succ count ih =>
    rw [Nat.add_right_comm]
    cases first : start.step program eof with
    | inl next =>
      rw [advance_step first] at reaches ⊢
      exact ih reaches
    | inr final => simp [advance, first] at reaches

theorem Comes.advance_eq (comes : Comes program eof start count config) :
    start.advance program eof count = .inl config := by
  induction comes with
  | start => rfl
  | step _ step ih => rw [advance_add ih, advance_one, step]

/-- So many instructions are executed one after the other, or the run ends before. -/
theorem advance_cases (program : Program) (eof : EndOfInput) (start : Config ρ) (count : Nat) :
    (∃ config, Comes program eof start count config ∧ start.advance program eof count = .inl config) ∨
      ∃ fewer config final, fewer < count ∧ Comes program eof start fewer config ∧
        config.step program eof = .inr final ∧ start.advance program eof count = .inr final := by
  induction count with
  | zero => exact .inl ⟨start, .start, rfl⟩
  | succ count ih =>
    rcases ih with ⟨config, comes, reaches⟩ | ⟨fewer, config, final, less, comes, last, ends⟩
    · have next := advance_add reaches 1
      rw [advance_one] at next
      cases step : config.step program eof with
      | inl after => exact .inl ⟨after, comes.step step, next.trans step⟩
      | inr final => exact .inr ⟨count, config, final, Nat.lt_succ_self count, comes, step, next.trans step⟩
    · exact .inr ⟨fewer, config, final, Nat.lt_succ_of_lt less, comes, last, advance_mono ends 1⟩

theorem Comes.unique (comes : Comes program eof start count config) (again : Comes program eof start count next) :
    config = next :=
  Sum.inl.inj (comes.advance_eq.symm.trans again.advance_eq)

theorem Comes.advance_end (comes : Comes program eof start count config) (last : config.step program eof = .inr final) :
    start.advance program eof (count + 1) = .inr final := by
  rw [advance_add comes.advance_eq, advance_one, last]

/-- A run has one end. -/
theorem Ends.unique (ends : Ends program eof start final) (again : Ends program eof start other) : final = other := by
  obtain ⟨count, config, comes, last⟩ := ends
  obtain ⟨more, next, comesNext, lastNext⟩ := again
  have later := advance_mono (comes.advance_end last) (more + 1)
  rw [Nat.add_comm, advance_mono (comesNext.advance_end lastNext) (count + 1)] at later
  exact (Sum.inr.inj later).symm

/-- Nothing is executed behind the end. -/
theorem Comes.le_end {most : Nat} (comes : Comes program eof start count config)
    (comesLast : Comes program eof start most next) (last : next.step program eof = .inr final) : count ≤ most := by
  refine Nat.le_of_not_lt fun beyond => ?_
  obtain ⟨more, rfl⟩ := Nat.exists_eq_add_of_lt beyond
  have ends := advance_mono (comesLast.advance_end last) more
  rw [Nat.add_right_comm, comes.advance_eq] at ends
  cases ends

/-- The pointer is no further from its start than there were instructions. -/
theorem Comes.near {literal? : Option Literal} {host : ρ}
    (comes : Comes program eof ⟨0, 0, .start literal? host⟩ count config) :
    config.state.relativePointer.natAbs ≤ count := by
  obtain ⟨_, left, right⟩ := (near_start literal? host).advance comes.advance_eq
  rw [State.relativePointer]
  omega

theorem Ends.near {literal? : Option Literal} {host : ρ} (ends : Ends program eof ⟨0, 0, .start literal? host⟩ final) :
    final.state.relativePointer.natAbs ≤ final.steps := by
  obtain ⟨count, config, comes, last⟩ := ends
  have near := comes.near
  have steps := comes.steps_eq
  rcases last_cases last with ⟨_, rfl⟩ | ⟨_, more, pointer⟩
  · rw [steps]
    simpa using near
  · rw [State.relativePointer, pointer, ← State.relativePointer]
    omega

end Config

/-- A limited run is the whole run, or it stops in what the run comes to within the limit. -/
theorem runWithin_cases (program : Program) (eof : EndOfInput) (limit : Nat) (start : State ρ) :
    (∃ final, Config.Ends program eof ⟨0, 0, start⟩ final ∧ final.steps ≤ limit ∧
      runWithin program eof limit start = final) ∨
      ∃ config, Config.Comes program eof ⟨0, 0, start⟩ limit config ∧
        (∀ final, Config.Ends program eof ⟨0, 0, start⟩ final → limit < final.steps) ∧
        runWithin program eof limit start = ⟨.limit, limit + 1, config.state⟩ := by
  rcases Config.advance_cases program eof ⟨0, 0, start⟩ limit with
    ⟨config, comes, reaches⟩ | ⟨fewer, config, final, less, comes, last, ends⟩
  · have steps : config.steps = limit := by simpa using comes.steps_eq
    by_cases inside : config.position < program.code.size
    · refine .inr ⟨config, comes, ?_, by simp [runWithin, reaches, inside, steps]⟩
      rintro final ⟨count, next, comesNext, last⟩
      have before := comes.le_end comesNext last
      have counted : next.steps = count := by simpa using comesNext.steps_eq
      rcases Config.last_cases last with ⟨passed, rfl⟩ | ⟨_, more, _⟩
      · -- The run cannot be behind its last instruction yet.
        have apart : limit ≠ count := by
          rintro rfl
          rw [comes.unique comesNext] at inside
          omega
        simp only
        omega
      · omega
    · have last : config.step program eof = .inr ⟨.done, config.steps, config.state⟩ :=
        Config.step_done config.state (Nat.le_of_not_lt inside)
      exact .inl ⟨_, ⟨limit, config, comes, last⟩, Nat.le_of_eq steps, by simp [runWithin, reaches, inside]⟩
  · refine .inl ⟨final, ⟨fewer, config, comes, last⟩, ?_, by simp [runWithin, ends]⟩
    have steps : config.steps = fewer := by simpa using comes.steps_eq
    rcases Config.last_cases last with ⟨_, rfl⟩ | ⟨_, more, _⟩
    · simp only
      omega
    · omega

/-- The run without a limit is the run that is told instruction by instruction. -/
theorem exists_run?_iff {start : State ρ} {final : Final ρ} :
    (∃ fuel, run? program eof fuel start = some final) ↔ Config.Ends program eof ⟨0, 0, start⟩ final := by
  constructor
  · rintro ⟨fuel, ran⟩
    simp only [run?] at ran
    split at ran
    · cases ran
    · rename_i inside
      obtain rfl := Option.some.inj ran
      rcases runWithin_cases program eof fuel start with ⟨final, ends, _, same⟩ | ⟨_, _, _, same⟩
      · rw [same]
        exact ends
      · rw [same] at inside
        exact absurd rfl inside
  · rintro ⟨count, config, comes, last⟩
    have ends := comes.advance_end last
    have whole : runWithin program eof (count + 1) start = final := by simp [runWithin, ends]
    have inside := status_runWithin ends
    rw [whole] at inside
    exact ⟨count + 1, by simp [run?, whole, inside]⟩

/-- A run that ends within a limit ends within a larger one. -/
theorem status_mono {limit more : Nat} {start : State ρ} (larger : limit ≤ more)
    (inside : (runWithin program eof limit start).status ≠ .limit) :
    (runWithin program eof more start).status ≠ .limit := by
  have ends := run?_of_runWithin inside larger
  intro cut
  simp [run?, cut] at ends

/-- A limit only cuts a run short. If the run ends, a limit that is no smaller than its steps gives its end, and a
smaller one the state that it is in after so many instructions; if it does not end, every limit gives the latter. One
more instruction than the limit is counted then. The pointer is never further from its start than there were
instructions, and a program known to end within a limit is known to end within every larger one. -/
theorem limit_cuts (source : String) (literal? : Option Literal) (eof : EndOfInput) (host : ρ) :
    let program := Program.ofSource source
    let start : Config ρ := ⟨0, 0, .start literal? host⟩
    (∀ final, (∃ fuel, runSource? fuel none source literal? eof host = some final) ↔ start.Ends program eof final) ∧
    (∀ final, start.Ends program eof final → ∀ fuel limit,
      (final.steps ≤ limit → runSource? fuel (some limit) source literal? eof host = some final) ∧
      (limit < final.steps → ∃ config, start.Comes program eof limit config ∧
        runSource? fuel (some limit) source literal? eof host = some ⟨.limit, limit + 1, config.state⟩)) ∧
    ((∀ final, ¬start.Ends program eof final) → ∀ fuel limit, ∃ config, start.Comes program eof limit config ∧
      runSource? fuel (some limit) source literal? eof host = some ⟨.limit, limit + 1, config.state⟩) ∧
    (∀ count config, start.Comes program eof count config →
      config.steps = count ∧ config.state.relativePointer.natAbs ≤ count) ∧
    (∀ final, start.Ends program eof final → final.state.relativePointer.natAbs ≤ final.steps) ∧
    ∀ (sample : Sample) (fuel limit more : Nat), limit ≤ more →
      sample.endsWithin? fuel (some limit) = some true → sample.endsWithin? fuel (some more) = some true := by
  intro program start
  have limited (fuel limit : Nat) : runSource? fuel (some limit) source literal? eof host =
      some (runWithin program eof limit (.start literal? host)) := rfl
  have ways (limit : Nat) := runWithin_cases program eof limit (.start literal? host)
  refine ⟨fun final => exists_run?_iff, ?_, ?_, ?_, fun final ends => ends.near, ?_⟩
  · intro final ends fuel limit
    rw [limited]
    rcases ways limit with ⟨other, endsOther, within, same⟩ | ⟨config, comes, beyond, same⟩
    · obtain rfl := ends.unique endsOther
      exact ⟨fun _ => congrArg some same, fun less => absurd less (Nat.not_lt_of_le within)⟩
    · exact ⟨fun within => absurd (beyond final ends) (Nat.not_lt_of_le within),
        fun _ => ⟨config, comes, congrArg some same⟩⟩
  · intro endless fuel limit
    rcases ways limit with ⟨final, ends, _⟩ | ⟨config, comes, _, same⟩
    · exact absurd ends (endless final)
    · exact ⟨config, comes, congrArg some same⟩
  · intro count config comes
    exact ⟨by simpa [start] using comes.steps_eq, comes.near⟩
  · intro sample fuel limit more larger ends
    have inside : (runWithin (.ofSource sample.source) sample.options.eof limit
        (.start sample.options.input? (Collector.ofLines sample.trial.lines))).status ≠ .limit := by
      simpa [Sample.endsWithin?, runSource?] using ends
    simpa [Sample.endsWithin?, runSource?] using status_mono larger inside

/-- A counter that is moved in seven steps, stopped after three. -/
theorem limit_cuts_move :
    runSource? 0 (some 9) "+[->+<]" none .halt (Collector.ofLines []) =
        some ⟨.done, 7, (State.start none (Collector.ofLines [])).add 1 1⟩ ∧
      ∃ config, Config.Comes (.ofSource "+[->+<]") .halt ⟨0, 0, .start none (Collector.ofLines [])⟩ 3 config ∧
        runSource? 0 (some 3) "+[->+<]" none .halt (Collector.ofLines []) = some ⟨.limit, 4, config.state⟩ := by
  have final := runWithin_move (Tape.read?_blank Tape.covers_start)
  have ran : ∃ fuel, runSource? fuel none "+[->+<]" none .halt (Collector.ofLines []) =
      some ⟨.done, 7, (State.start none (Collector.ofLines [])).add 1 1⟩ := by
    refine ⟨7, ?_⟩
    simp [runSource?, run?, State.start, Literal.buffer, final]
    rfl
  obtain ⟨told, cuts, _⟩ := limit_cuts "+[->+<]" none .halt (Collector.ofLines [])
  have cut := cuts _ ((told _).mp ran)
  exact ⟨(cut 0 9).1 (by decide), (cut 0 3).2 (by decide)⟩

end TapeScript.Interpreter
