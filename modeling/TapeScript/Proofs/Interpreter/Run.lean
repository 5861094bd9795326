import TapeScript.Proofs.Interpreter.Tree
import TapeScript.Proofs.Machine

/-! The interpreter and the tree. The jumps of the interpreter are the tests of the loops, so it comes
to an end exactly where the tree says, and a run that it does not end has no behaviour. -/
namespace TapeScript.Interpreter

variable {ρ : Type}

/-- How a run ended, in the terms of a compiled program. -/
def Final.outcome (final : Final ρ) : Outcome ρ :=
  match final.status with
  | .failed error => .failed error final.state
  | _ => .ended final.state

theorem Final.outcome_state (final : Final ρ) : final.outcome.state = final.state := by
  simp only [outcome]
  split <;> rfl

variable [Host ρ] {program : Program} {meaning : Meaning ρ}

namespace Config

theorem perform_token {instruction : Instruction} (following : Nat) (state : State ρ) :
    instruction.token.act meaning following state = ⟨[], instruction.token.perform meaning 0 state⟩ := by
  cases instruction <;> rfl

private theorem step_token (meaning : Meaning ρ) {position : Nat} {instruction : Instruction}
    (here : program.code[position]? = some instruction) (plain : instruction.token.isMarker = false)
    (steps : Nat) (state : State ρ) :
    step program meaning.eof ⟨position, steps, state⟩ =
      match instruction.token.perform meaning 0 state with
      | .next state => .inl ⟨position + 1, steps + 1, state⟩
      | .ended state => .inr ⟨.halted, steps + 1, state⟩
      | .failed error state => .inr ⟨.failed error, steps + 1, state⟩ := by
  cases instruction with
  | loopOpen | loopClose => cases plain
  | input => simp only [step, here]; rfl
  | _ => simp only [step, here]; rfl

/-- A bracket with a partner: where it is set, the run goes on in the loop that begins at `start`, and
otherwise after the one that ends at `close`. -/
private theorem step_bracket (meaning : Meaning ρ) {place start close : Nat}
    (bracket : place = start ∧ program.code[start]? = some .loopOpen ∧ program.partner? start = some close ∨
      place = close ∧ program.code[close]? = some .loopClose ∧ program.partner? close = some start)
    (steps : Nat) (state : State ρ) :
    step program meaning.eof ⟨place, steps, state⟩ =
      .inl ⟨if state.isSet then start + 1 else close + 1, steps + 1, state⟩ := by
  rcases bracket with ⟨rfl, here, partner⟩ | ⟨rfl, here, partner⟩ <;> cases set : state.isSet <;>
    simp [step, here, Program.jump, partner, set]

private theorem step_stray (meaning : Meaning ρ) {position : Nat} {bracket : Instruction}
    (here : program.code[position]? = some bracket) (marker : bracket.token.isMarker = true)
    (alone : program.partner? position = none) (steps : Nat) (state : State ρ) :
    step program meaning.eof ⟨position, steps, state⟩ = .inl ⟨position + 1, steps + 1, state⟩ := by
  cases bracket with
  | loopOpen | loopClose => cases set : state.isSet <;> simp [step, here, Program.jump, alone, set]
  | _ => cases marker

theorem advance_step {eof : EndOfInput} {config next : Config ρ} (step : config.step program eof = .inl next)
    (count : Nat) : config.advance program eof (count + 1) = next.advance program eof count := by
  simp [advance, step]

/-- The run does what is told of some code and is then at a position. -/
def Goes (program : Program) (eof : EndOfInput) (config : Config ρ) (position : Nat) : Behaviour ρ → Prop
  | ⟨_, .next state⟩ => ∃ count steps, ∀ more,
      config.advance program eof (count + more) = advance program eof more ⟨position, steps, state⟩
  | ⟨_, .ended state⟩ => ∃ count steps, ∀ more,
      config.advance program eof (count + more) = .inr ⟨.halted, steps, state⟩
  | ⟨_, .failed error state⟩ => ∃ count steps, ∀ more,
      config.advance program eof (count + more) = .inr ⟨.failed error, steps, state⟩

private theorem Goes.step {config next : Config ρ} {position : Nat} {whole : Behaviour ρ} {seen : List Occurrence}
    (step : config.step program meaning.eof = .inl next) (goes : next.Goes program meaning.eof position whole) :
    config.Goes program meaning.eof position ⟨seen, whole.step⟩ := by
  obtain ⟨more, last⟩ := whole
  cases last with
  | next state | ended state | failed error state =>
    obtain ⟨count, steps, goes⟩ := goes
    refine ⟨count + 1, steps, fun more => ?_⟩
    rw [Nat.add_right_comm, advance_step step]
    exact goes more

private theorem Goes.trans {config : Config ρ} {middle last : Nat} {seen more : List Occurrence} {state : State ρ}
    {whole : Behaviour ρ} (first : config.Goes program meaning.eof middle ⟨seen, .next state⟩)
    (second : ∀ steps, Goes program meaning.eof ⟨middle, steps, state⟩ last whole) :
    config.Goes program meaning.eof last ⟨more, whole.step⟩ := by
  obtain ⟨count, steps, goes⟩ := first
  have after := second steps
  obtain ⟨_, step⟩ := whole
  cases step with
  | next state | ended state | failed error state =>
    obtain ⟨further, steps, goesAfter⟩ := after
    refine ⟨count + further, steps, fun more => ?_⟩
    rw [Nat.add_assoc, goes, goesAfter]

private theorem Goes.leads {config : Config ρ} {middle last : Nat} {first whole : Behaviour ρ}
    {next : State ρ → Behaviour ρ → Prop} (goes : config.Goes program meaning.eof middle first)
    (leads : first.Leads next whole)
    (continues : ∀ state second, next state second → ∀ steps,
      Goes program meaning.eof ⟨middle, steps, state⟩ last second) :
    config.Goes program meaning.eof last whole := by
  obtain ⟨seen, step⟩ := first
  cases step with
  | next state =>
    obtain ⟨second, found, rfl⟩ := leads
    exact goes.trans (continues state second found)
  | ended state | failed error state =>
    cases leads
    exact goes

private theorem loop_goes {guard : Code → State ρ → Prop} {start close following steps place : Nat} {body : Code}
    {state : State ρ} {first : Behaviour ρ} (opening : program.code[start]? = some .loopOpen)
    (partner : program.partner? start = some close) (closing : program.code[close]? = some .loopClose)
    (partnerBack : program.partner? close = some start) (loop : Loop (body.Runs guard meaning following) state first)
    (goes : ∀ state whole, body.Runs guard meaning following state whole →
      ∀ steps, Goes program meaning.eof ⟨start + 1, steps, state⟩ close whole)
    (bracket : place = start ∨ place = close) :
    Goes program meaning.eof ⟨place, steps, state⟩ (close + 1) first := by
  have test {place : Nat} (bracket : place = start ∨ place = close) :=
    @step_bracket ρ _ program meaning place start close
      (bracket.imp (fun same => ⟨same, opening, partner⟩) fun same => ⟨same, closing, partnerBack⟩)
  induction loop generalizing steps place with
  | @skip state unset =>
    have left := test bracket steps state
    simp only [unset, Bool.false_eq_true, if_false] at left
    have stays : Goes program meaning.eof ⟨close + 1, steps + 1, state⟩ (close + 1) (.stay state) :=
      ⟨0, steps + 1, fun more => by rw [Nat.zero_add]⟩
    exact Goes.step left stays
  | @again state next seen last set run _ ih =>
    have enter := test bracket steps state
    simp only [set, if_true] at enter
    have around := goes _ _ run (steps + 1)
    have whole : Goes program meaning.eof ⟨start + 1, steps + 1, state⟩ (close + 1) last :=
      Goes.trans around fun steps => ih (.inr rfl)
    exact Goes.step enter whole
  | @ended state last seen set run =>
    have enter := test bracket steps state
    simp only [set, if_true] at enter
    have passed : Goes program meaning.eof ⟨start + 1, steps + 1, state⟩ (close + 1) ⟨seen, .ended last⟩ :=
      goes _ _ run (steps + 1)
    exact Goes.step enter passed
  | @failed state last seen error set run =>
    have enter := test bracket steps state
    simp only [set, if_true] at enter
    have passed : Goes program meaning.eof ⟨start + 1, steps + 1, state⟩ (close + 1) ⟨seen, .failed error last⟩ :=
      goes _ _ run (steps + 1)
    exact Goes.step enter passed

/-- The interpreter does what the tree tells. -/
theorem goes_of_runs {guard : Code → State ρ → Prop} {nested : Bool} {position last following : Nat} {code : Code}
    {state : State ρ} {whole : Behaviour ρ} (spans : Spans program nested position code last) (steps : Nat)
    (runs : code.Runs guard meaning following state whole) :
    Goes program meaning.eof ⟨position, steps, state⟩ last whole := by
  induction spans generalizing following state whole steps with
  | done =>
    cases runs
    exact ⟨0, steps, fun more => by rw [Nat.zero_add]⟩
  | @token nested position last instruction code here plain _ ih =>
    have first : Goes program meaning.eof ⟨position, steps, state⟩ (position + 1)
        (instruction.token.act meaning (code.extensions + following) state) := by
      have stepped := step_token meaning here plain steps state
      rw [perform_token]
      cases performed : instruction.token.perform meaning 0 state with
      | next next =>
        rw [performed] at stepped
        exact ⟨1, steps + 1, fun more => by rw [Nat.add_comm, advance_step stepped]⟩
      | ended next | failed error next =>
        rw [performed] at stepped
        exact ⟨1, steps + 1, fun more => by rw [Nat.add_comm, advance, stepped]⟩
    exact first.leads runs fun _ _ run steps => ih steps run
  | loop opening partner _ closing partnerBack _ ihInside ih =>
    obtain ⟨_, first, loop, leads⟩ := runs
    have around : Goes program meaning.eof ⟨_, steps, _⟩ _ first :=
      loop_goes opening partner closing partnerBack loop (fun _ _ run steps => ihInside steps run) (.inl rfl)
    exact around.leads leads fun _ _ run steps => ih steps run
  | stray here marker alone _ ih =>
    have stepped := step_stray meaning here marker alone steps state
    exact Goes.step stepped (ih (steps + 1) runs)

/-- Some position and state that the run comes to. -/
def Visits (program : Program) (eof : EndOfInput) (config : Config ρ) (position : Nat) (state : State ρ) : Prop :=
  ∃ count steps, config.advance program eof count = .inl ⟨position, steps, state⟩

/-- The guard lets in every loop whose beginning the run comes to. -/
def Allowed (guard : Code → State ρ → Prop) (program : Program) (eof : EndOfInput) (config : Config ρ) : Prop :=
  ∀ position state, config.Visits program eof position state →
    ∀ close body, program.code[position]? = some .loopOpen → program.partner? position = some close →
      program.code[close]? = some .loopClose → Spans program true (position + 1) body close → guard body state

private theorem Allowed.step {guard : Code → State ρ → Prop} {config next : Config ρ} {eof : EndOfInput}
    (allowed : config.Allowed guard program eof) (step : config.step program eof = .inl next) :
    next.Allowed guard program eof := by
  rintro position state ⟨count, steps, visits⟩
  exact allowed position state ⟨count + 1, steps, by rw [advance_step step]; exact visits⟩

/-- What is told of a run that ended: where it goes on, it still ends in the same way. -/
private def Tells (guard : Code → State ρ → Prop) (program : Program) (eof : EndOfInput) (final : Final ρ)
    (below : Nat) (position : Nat) (whole : Behaviour ρ) : Prop :=
  match whole.step with
  | .next state => ∃ fewer < below, ∃ steps, advance program eof fewer ⟨position, steps, state⟩ = .inr final ∧
      Allowed guard program eof ⟨position, steps, state⟩
  | .ended state => final.outcome = .ended state
  | .failed error state => final.outcome = .failed error state

private theorem Tells.weaken {guard : Code → State ρ → Prop} {eof : EndOfInput} {final : Final ρ}
    {below more position : Nat} {whole : Behaviour ρ} {seen : List Occurrence}
    (tells : Tells guard program eof final below position whole) (larger : below ≤ more) :
    Tells guard program eof final more position ⟨seen, whole.step⟩ := by
  obtain ⟨_, step⟩ := whole
  cases step with
  | next state =>
    obtain ⟨fewer, bound, found⟩ := tells
    exact ⟨fewer, Nat.lt_of_lt_of_le bound larger, found⟩
  | ended state | failed error state => exact tells

private def Told (guard : Code → State ρ → Prop) (program : Program) (meaning : Meaning ρ) (final : Final ρ)
    (count : Nat) : Prop :=
  ∀ nested position code last following steps state, Spans program nested position code last →
    advance program meaning.eof count ⟨position, steps, state⟩ = .inr final →
    Allowed guard program meaning.eof ⟨position, steps, state⟩ →
    ∃ whole : Behaviour ρ, code.Runs guard meaning following state whole ∧
      Tells guard program meaning.eof final (count + 1) last whole

private def ToldLoop (guard : Code → State ρ → Prop) (program : Program) (meaning : Meaning ρ) (final : Final ρ)
    (count : Nat) : Prop :=
  ∀ start close place body following steps state, program.code[start]? = some .loopOpen →
    program.partner? start = some close → program.code[close]? = some .loopClose →
    program.partner? close = some start → Spans program true (start + 1) body close →
    place = start ∨ place = close →
    advance program meaning.eof count ⟨place, steps, state⟩ = .inr final →
    Allowed guard program meaning.eof ⟨place, steps, state⟩ →
    ∃ first : Behaviour ρ, Loop (body.Runs guard meaning following) state first ∧
      Tells guard program meaning.eof final count (close + 1) first

private theorem toldLoop {guard : Code → State ρ → Prop} {final : Final ρ} (count : Nat)
    (told : ∀ fewer < count, Told guard program meaning final fewer)
    (toldAgain : ∀ fewer < count, ToldLoop guard program meaning final fewer) :
    ToldLoop guard program meaning final count := by
  intro start close place body following steps state opening partner closing partnerBack inside bracket ends allowed
  cases count with
  | zero => cases ends
  | succ count =>
    have test := @step_bracket ρ _ program meaning place start close
      (bracket.imp (fun same => ⟨same, opening, partner⟩) fun same => ⟨same, closing, partnerBack⟩) steps state
    cases set : state.isSet with
    | false =>
      simp only [set, Bool.false_eq_true, if_false] at test
      rw [advance_step test] at ends
      exact ⟨.stay state, .skip set, count, by omega, steps + 1, ends, allowed.step test⟩
    | true =>
      simp only [set, if_true] at test
      rw [advance_step test] at ends
      obtain ⟨⟨seen, last⟩, run, tells⟩ :=
        told count (by omega) true _ _ _ following _ _ inside ends (allowed.step test)
      cases last with
      | ended last => exact ⟨_, .ended set run, tells⟩
      | failed error last => exact ⟨_, .failed set run, tells⟩
      | next next =>
        obtain ⟨fewer, bound, stepsAfter, endsAfter, allowedAfter⟩ := tells
        obtain ⟨rest, loop, tellsAfter⟩ := toldAgain fewer bound start close close body following stepsAfter next
          opening partner closing partnerBack inside (.inr rfl) endsAfter allowedAfter
        exact ⟨_, .again set run loop, tellsAfter.weaken (by omega)⟩

private theorem told {guard : Code → State ρ → Prop} {final : Final ρ} (count : Nat) :
    Told guard program meaning final count ∧ ToldLoop guard program meaning final count := by
  induction count using Nat.strongRecOn with
  | ind count ih =>
    have again := toldLoop count (fun fewer bound => (ih fewer bound).1) (fun fewer bound => (ih fewer bound).2)
    refine ⟨?_, again⟩
    intro nested position code last following steps state spans ends allowed
    cases spans with
    | done => exact ⟨.stay state, rfl, count, by omega, steps, ends, allowed⟩
    | @token _ _ _ instruction code here plain rest =>
      cases count with
      | zero => cases ends
      | succ count =>
        have stepped := step_token meaning here plain steps state
        cases performed : instruction.token.perform meaning 0 state with
        | next next =>
          rw [performed] at stepped
          rw [advance_step stepped] at ends
          obtain ⟨whole, run, tells⟩ := (ih count (by omega)).1 _ _ _ _ following _ _ rest ends (allowed.step stepped)
          refine ⟨⟨[] ++ whole.occurrences, whole.step⟩, ?_, tells.weaken (by omega)⟩
          simp only [Code.Runs, perform_token, performed]
          exact ⟨whole, run, rfl⟩
        | ended next | failed error next =>
          rw [performed] at stepped
          rw [advance, stepped] at ends
          obtain rfl := Sum.inr.inj ends
          refine ⟨instruction.token.act meaning (code.extensions + following) state, ?_, ?_⟩
          · simp only [Code.Runs, perform_token, performed, Behaviour.Leads]
          · rw [perform_token, performed]
            rfl
    | @loop _ _ close _ body code opening partner inside closing partnerBack rest =>
      have start := allowed position state ⟨0, steps, rfl⟩ close body opening partner closing inside
      obtain ⟨⟨seen, step⟩, loop, tells⟩ := again position close position body (code.extensions + following) steps state
        opening partner closing partnerBack inside (.inl rfl) ends allowed
      cases step with
      | ended last | failed error last => exact ⟨_, ⟨start, _, loop, rfl⟩, tells⟩
      | next next =>
        obtain ⟨fewer, bound, stepsAfter, endsAfter, allowedAfter⟩ := tells
        obtain ⟨whole, run, tellsAfter⟩ := (ih fewer bound).1 _ _ _ _ following _ _ rest endsAfter allowedAfter
        exact ⟨_, ⟨start, _, loop, whole, run, rfl⟩, tellsAfter.weaken (by omega)⟩
    | @stray _ _ bracket code here marker alone rest =>
      cases count with
      | zero => cases ends
      | succ count =>
        have stepped := step_stray meaning here marker alone steps state
        rw [advance_step stepped] at ends
        obtain ⟨whole, run, tells⟩ := (ih count (by omega)).1 _ _ _ _ following _ _ rest ends (allowed.step stepped)
        exact ⟨whole, run, tells.weaken (by omega)⟩

theorem advance_mono {config : Config ρ} {eof : EndOfInput} {final : Final ρ} {count : Nat}
    (ends : config.advance program eof count = .inr final) (more : Nat) :
    config.advance program eof (count + more) = .inr final := by
  induction count generalizing config with
  | zero => cases ends
  | succ count ih =>
    rw [Nat.add_right_comm]
    cases step : config.step program eof with
    | inl next =>
      rw [advance_step step] at ends ⊢
      exact ih ends
    | inr last => simpa [advance, step] using ends

private theorem advance_last {config : Config ρ} {eof : EndOfInput} {count : Nat} {next : Config ρ}
    (reaches : config.advance program eof count = .inl next) {final : Final ρ}
    (last : next.step program eof = .inr final) :
    config.advance program eof (count + 1) = .inr final := by
  induction count generalizing config with
  | zero =>
    cases reaches
    simp [advance, last]
  | succ count ih =>
    cases step : config.step program eof with
    | inl next =>
      rw [advance_step step] at reaches ⊢
      exact ih reaches
    | inr final => simp [advance, step] at reaches

theorem step_done {eof : EndOfInput} {position steps : Nat} (state : State ρ)
    (passed : program.code.size ≤ position) :
    step program eof ⟨position, steps, state⟩ = .inr ⟨.done, steps, state⟩ := by
  simp [step, Array.getElem?_eq_none passed]

private theorem status_of_advance {config : Config ρ} {eof : EndOfInput} {final : Final ρ} {count : Nat}
    (ends : config.advance program eof count = .inr final) : final.status ≠ .limit := by
  induction count generalizing config with
  | zero => cases ends
  | succ count ih =>
    cases stepped : config.step program eof with
    | inl next =>
      rw [advance_step stepped] at ends
      exact ih ends
    | inr last =>
      simp only [advance, stepped, Sum.inr.injEq] at ends
      subst ends
      simp only [step] at stepped
      split at stepped <;> try cases stepped
      · simp
      · split at stepped <;> cases stepped <;> simp

end Config

/-- A run ends within a limit if one more instruction ends it. -/
theorem advance_of_runWithin {eof : EndOfInput} {limit : Nat} {start : State ρ}
    (inside : (runWithin program eof limit start).status ≠ .limit) :
    Config.advance program eof (limit + 1) ⟨0, 0, start⟩ = .inr (runWithin program eof limit start) := by
  cases reaches : Config.advance program eof limit ⟨0, 0, start⟩ with
  | inr final =>
    simp only [runWithin, reaches]
    exact Config.advance_mono reaches 1
  | inl config =>
    simp only [runWithin, reaches] at inside ⊢
    have passed : ¬config.position < program.code.size := by
      intro below
      simp [below] at inside
    rw [Config.advance_last reaches (Config.step_done config.state (Nat.le_of_not_lt passed))]
    simp [passed]

theorem status_runWithin {eof : EndOfInput} {limit : Nat} {start : State ρ} {final : Final ρ}
    (ends : Config.advance program eof limit ⟨0, 0, start⟩ = .inr final) :
    (runWithin program eof limit start).status ≠ .limit := by
  simpa [runWithin, ends] using Config.status_of_advance ends

private theorem run?_of_advance {eof : EndOfInput} {fuel : Nat} {start : State ρ} {final : Final ρ}
    (ends : Config.advance program eof fuel ⟨0, 0, start⟩ = .inr final) :
    run? program eof fuel start = some final := by
  simp [run?, runWithin, ends, Config.status_of_advance ends]

/-- A run that ends within a limit is the run without one. -/
theorem run?_of_runWithin {eof : EndOfInput} {limit fuel : Nat} {start : State ρ}
    (inside : (runWithin program eof limit start).status ≠ .limit) (enough : limit ≤ fuel) :
    run? program eof fuel start = some (runWithin program eof limit start) := by
  obtain ⟨more, rfl⟩ := Nat.exists_eq_add_of_le enough
  cases more with
  | zero => simp [run?, inside]
  | succ more =>
    have ends := Config.advance_mono (advance_of_runWithin inside) more
    rw [Nat.add_assoc, Nat.add_comm 1 more] at ends
    exact run?_of_advance ends

/-- A source text whose tree runs is run to its end by the interpreter. -/
theorem run?_of_runs {guard : Code → State ρ → Prop} {raw : Code} {start : State ρ} {whole : Behaviour ρ}
    (spans : Spans program false 0 raw program.code.size) (runs : raw.Runs guard meaning 0 start whole) :
    ∃ enough, ∀ fuel ≥ enough, ∃ final, run? program meaning.eof fuel start = some final ∧
      final.outcome = whole.outcome := by
  have goes := Config.goes_of_runs spans 0 runs
  obtain ⟨_, last⟩ := whole
  cases last with
  | next last =>
    obtain ⟨count, steps, goes⟩ := goes
    refine ⟨count + 1, fun fuel bound => ?_⟩
    obtain ⟨more, rfl⟩ := Nat.exists_eq_add_of_le bound
    have ends := goes (1 + more)
    rw [Nat.add_comm 1 more, Config.advance, Config.step_done last (Nat.le_refl _), ← Nat.add_comm 1,
      ← Nat.add_assoc] at ends
    exact ⟨_, run?_of_advance ends, rfl⟩
  | ended last | failed error last =>
    obtain ⟨count, steps, goes⟩ := goes
    refine ⟨count, fun fuel bound => ?_⟩
    obtain ⟨more, rfl⟩ := Nat.exists_eq_add_of_le bound
    exact ⟨_, run?_of_advance (goes more), rfl⟩

/-- A source text that the interpreter runs to its end has a tree that runs, if the guard lets in every
loop whose beginning the run comes to. -/
theorem runs_of_run? {guard : Code → State ρ → Prop} {raw : Code} {fuel : Nat} {start : State ρ} {final : Final ρ}
    (spans : Spans program false 0 raw program.code.size) (ends : run? program meaning.eof fuel start = some final)
    (allowed : Config.Allowed guard program meaning.eof ⟨0, 0, start⟩) :
    ∃ whole : Behaviour ρ, raw.Runs guard meaning 0 start whole ∧ whole.outcome = final.outcome := by
  simp only [run?] at ends
  split at ends
  · cases ends
  · rename_i inside
    have advanced := advance_of_runWithin inside
    obtain rfl := Option.some.inj ends
    obtain ⟨⟨seen, last⟩, run, tells⟩ := (Config.told _).1 _ _ _ _ 0 _ _ spans advanced allowed
    refine ⟨_, run, ?_⟩
    cases last with
    | next last =>
      obtain ⟨fewer, _, steps, endsAfter, _⟩ := tells
      cases fewer with
      | zero => cases endsAfter
      | succ fewer =>
        rw [Config.advance, Config.step_done last (Nat.le_refl _)] at endsAfter
        obtain same := Sum.inr.inj endsAfter
        rw [← same]
        rfl
    | ended last | failed error last => exact tells.symm

end TapeScript.Interpreter
