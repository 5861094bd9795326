import TapeScript.Proofs.Behaviour

/-! The machine and the tree. The machine that takes one step after another ends exactly where the
tree says, having executed the same extensions; a program it does not end has no behaviour. -/
namespace TapeScript

/-- How many extensions of the stream come after some code, once a loop it starts with is left. -/
def Code.extensionsBehind : Code → Nat
  | .loop _ rest => rest.extensions
  | code => code.extensions

namespace Config

variable {ρ : Type} [Host ρ] {meaning : Meaning ρ}

/-- How many extensions of the stream follow the code of a running program. What comes after it are
the loops it is in. -/
def following : List Code → Nat
  | [] => 0
  | code :: after => code.extensionsBehind + following after

theorem following_loop (body rest : Code) (after : List Code) :
    following (.loop body rest :: after) = rest.extensions + following after := rfl

/-- The extension executed in the next step, if there is one. -/
def occurrence? : Config ρ → Option Occurrence
  | ⟨.token token rest, after, state⟩ =>
    if token.kind = .extension then
      some ⟨token.symbol?, rest.extensions + following after, state.tape, state.pointer⟩
    else none
  | _ => none

/-- The extensions executed within so many steps. -/
def occurrences (meaning : Meaning ρ) : Nat → Config ρ → List Occurrence
  | 0, _ => []
  | steps + 1, config =>
    config.occurrence?.toList ++
      match config.step meaning with
      | .inl next => next.occurrences meaning steps
      | .inr _ => []

/-- A run starts a loop of this body in this state. The test of a loop to whose start the run returns
is no start. -/
inductive Starts (meaning : Meaning ρ) : Config ρ → Code → State ρ → Prop where
  | here {body rest : Code} {after : List Code} {state : State ρ} :
      Starts meaning ⟨.loop body rest, after, state⟩ body state
  | later {config next : Config ρ} {body : Code} {state : State ρ} (inside : config.code ≠ .halt)
    (step : config.step meaning = .inl next)
      (starts : Starts meaning next body state) : Starts meaning config body state
  | back {code body : Code} {after : List Code} {state last : State ρ} {next : Config ρ}
    (step : Config.step meaning ⟨code, after, last⟩ = .inl next)
      (starts : Starts meaning next body state) : Starts meaning ⟨.halt, code :: after, last⟩ body state

section

variable {inner rest body : Code} {after : List Code} {state last : State ρ}

theorem starts_token {token : Token} :
    Starts meaning ⟨.token token rest, after, state⟩ body last ↔
      ∃ next, token.perform meaning 0 state = .next next ∧ Starts meaning ⟨rest, after, next⟩ body last := by
  constructor
  · rintro (_ | ⟨_, step, starts⟩)
    cases performed : token.perform meaning 0 state with
    | next next =>
      simp only [Config.step, performed, Sum.inl.injEq] at step
      subst step
      exact ⟨next, rfl, starts⟩
    | ended next | failed error next => simp [Config.step, performed] at step
  · rintro ⟨next, performed, starts⟩
    exact .later (by simp) (by simp [Config.step, performed]) starts

theorem starts_loop :
    Starts meaning ⟨.loop inner rest, after, state⟩ body last ↔
      inner = body ∧ state = last ∨
        Starts meaning (if state.isSet then ⟨inner, .loop inner rest :: after, state⟩ else ⟨rest, after, state⟩)
          body last := by
  have step : Config.step meaning ⟨.loop inner rest, after, state⟩ =
      .inl (if state.isSet then ⟨inner, .loop inner rest :: after, state⟩ else ⟨rest, after, state⟩) := by
    cases set : state.isSet <;> simp [Config.step, set]
  constructor
  · rintro (_ | ⟨_, stepped, starts⟩)
    · exact .inl ⟨rfl, rfl⟩
    · cases step.symm.trans stepped
      exact .inr starts
  · rintro (⟨rfl, rfl⟩ | starts)
    · exact .here
    · exact .later (by simp) step starts

theorem starts_back {code : Code} :
    Starts meaning ⟨.halt, code :: after, state⟩ body last ↔
      ∃ next, Config.step meaning ⟨code, after, state⟩ = .inl next ∧ Starts meaning next body last := by
  constructor
  · rintro (_ | ⟨inside, _, _⟩ | ⟨step, starts⟩)
    · exact absurd rfl inside
    · exact ⟨_, step, starts⟩
  · rintro ⟨next, step, starts⟩
    exact .back step starts

theorem not_starts_end : ¬Starts meaning ⟨.halt, [], state⟩ body last := by
  rintro (_ | ⟨inside, _, _⟩)
  exact absurd rfl inside

end

section

variable {code body rest : Code} {after : List Code} {state last : State ρ} {whole first : Behaviour ρ}
  {middle target : State ρ → Config ρ}

/-- The machine does what is told of some code and is then where the target says. -/
def Takes (meaning : Meaning ρ) (config : Config ρ) (target : State ρ → Config ρ) : Behaviour ρ → Prop
  | ⟨seen, .next state⟩ => ∃ steps, ∀ more,
      config.advance meaning (steps + more) = (target state).advance meaning more ∧
        config.occurrences meaning (steps + more) = seen ++ (target state).occurrences meaning more
  | ⟨seen, .ended state⟩ => ∃ steps, ∀ more,
      config.advance meaning (steps + more) = .inr (.ended state) ∧
        config.occurrences meaning (steps + more) = seen
  | ⟨seen, .failed error state⟩ => ∃ steps, ∀ more,
      config.advance meaning (steps + more) = .inr (.failed error state) ∧
        config.occurrences meaning (steps + more) = seen

theorem Takes.stay (config : Config ρ) (target : State ρ → Config ρ) (here : target state = config) :
    config.Takes meaning target (.stay state) :=
  ⟨0, fun more => by simp [here]⟩

private theorem advance_step {config next : Config ρ} (step : config.step meaning = .inl next) (steps : Nat) :
    config.advance meaning (steps + 1) = next.advance meaning steps ∧
      config.occurrences meaning (steps + 1) =
        config.occurrence?.toList ++ next.occurrences meaning steps := by
  simp [advance, occurrences, step]

/-- A step, and then the rest. -/
theorem Takes.step {config next : Config ρ} (step : config.step meaning = .inl next)
    (rest : next.Takes meaning target whole) :
    config.Takes meaning target ⟨config.occurrence?.toList ++ whole.occurrences, whole.step⟩ := by
  obtain ⟨seen, last⟩ := whole
  cases last with
  | next state | ended state | failed error state =>
    obtain ⟨steps, taken⟩ := rest
    refine ⟨steps + 1, fun more => ?_⟩
    have first := advance_step step (steps + more)
    rw [Nat.add_right_comm, first.1, first.2, (taken more).1, (taken more).2]
    simp

theorem Takes.trans {config : Config ρ}
    (first : config.Takes meaning middle ⟨seen, .next state⟩)
    (second : (middle state).Takes meaning target whole) :
    config.Takes meaning target ⟨seen ++ whole.occurrences, whole.step⟩ := by
  obtain ⟨more, last⟩ := whole
  obtain ⟨steps, taken⟩ := first
  cases last with
  | next state | ended state | failed error state =>
    obtain ⟨further, takenAfter⟩ := second
    refine ⟨steps + further, fun more => ?_⟩
    have before := taken (further + more)
    rw [Nat.add_assoc, before.1, before.2, (takenAfter more).1, (takenAfter more).2]
    simp

/-- If the machine goes on as some behaviour leads, it does the whole. -/
private theorem Takes.leads {config : Config ρ} {next : State ρ → Behaviour ρ → Prop}
    (takes : config.Takes meaning middle first) (leads : first.Leads next whole)
    (continues : ∀ state second, next state second → (middle state).Takes meaning target second) :
    config.Takes meaning target whole := by
  obtain ⟨seen, step⟩ := first
  cases step with
  | next state =>
    obtain ⟨second, found, rfl⟩ := leads
    exact takes.trans (continues state second found)
  | ended state =>
    cases leads
    exact takes
  | failed error state =>
    cases leads
    exact takes

private theorem token_takes (token : Token) (rest : Code) (after : List Code) (state : State ρ) :
    Config.Takes meaning ⟨.token token rest, after, state⟩ (fun state => ⟨rest, after, state⟩)
      (token.act meaning (rest.extensions + following after) state) := by
  have seen : (Config.occurrence? ⟨.token token rest, after, state⟩).toList =
      (token.act meaning (rest.extensions + following after) state).occurrences := by
    by_cases kind : token.kind = .extension <;> simp [occurrence?, Token.act, kind]
  rw [Token.act] at seen ⊢
  cases performed : token.perform meaning 0 state with
  | next last =>
    refine ⟨1, fun more => ?_⟩
    have stepped : Config.step meaning ⟨.token token rest, after, state⟩ = .inl ⟨rest, after, last⟩ := by
      simp [Config.step, performed]
    have first := advance_step stepped more
    rw [Nat.add_comm, first.1, first.2, seen]
    exact ⟨rfl, rfl⟩
  | ended last | failed error last =>
    refine ⟨1, fun more => ?_⟩
    rw [Nat.add_comm, advance, occurrences, seen]
    simp [Config.step, performed]

/-- The machine leaves a loop where the tree says. The induction is on the iterations. -/
private theorem loop_takes {guard : Code → State ρ → Prop}
    (loop : Loop (body.Runs guard meaning (following (.loop body rest :: after))) state first)
    (takes : ∀ state whole, body.Runs guard meaning (following (.loop body rest :: after)) state whole →
      Config.Takes meaning ⟨body, .loop body rest :: after, state⟩
        (fun state => ⟨.halt, .loop body rest :: after, state⟩) whole) :
    Config.Takes meaning ⟨.loop body rest, after, state⟩ (fun state => ⟨rest, after, state⟩) first := by
  have enter {state : State ρ} (set : state.isSet = true) :
      Config.step meaning ⟨.loop body rest, after, state⟩ = .inl ⟨body, .loop body rest :: after, state⟩ := by
    simp [Config.step, set]
  induction loop with
  | skip unset => exact Takes.step (by simp [Config.step, unset]) (.stay _ _ rfl)
  | @again _ next _ _ set run _ ih =>
    have back : Config.step meaning ⟨.halt, .loop body rest :: after, next⟩ = .inl ⟨.loop body rest, after, next⟩ := rfl
    exact (Takes.step (enter set) (takes _ _ run)).trans (Takes.step back ih)
  | ended set run => exact Takes.step (enter set) (takes _ _ run)
  | failed set run => exact Takes.step (enter set) (takes _ _ run)

/-- The machine does what the tree tells. -/
theorem takes_of_runs {guard : Code → State ρ → Prop} (after : List Code)
    (runs : Code.Runs guard meaning code (following after) state whole) :
    Config.Takes meaning ⟨code, after, state⟩ (fun state => ⟨.halt, after, state⟩) whole := by
  induction code generalizing after state whole with
  | halt =>
    cases runs
    exact .stay _ _ rfl
  | token token rest ih => exact (token_takes token rest after state).leads runs fun _ _ => ih after
  | loop body rest ihBody ih =>
    obtain ⟨_, first, loop, leads⟩ := runs
    rw [← following_loop body] at loop
    exact (loop_takes loop fun _ _ => ihBody _).leads leads fun _ _ => ih after

end

/-- Every loop that a run starts is let in by the guard. -/
def Allowed (guard : Code → State ρ → Prop) (meaning : Meaning ρ) (config : Config ρ) : Prop :=
  ∀ body state, Starts meaning config body state → guard body state

/-- A run of code from a state ends only after a run of the code alone. -/
private def Told (guard : Code → State ρ → Prop) (meaning : Meaning ρ) (outcome : Outcome ρ)
    (steps : Nat) : Prop :=
  ∀ code after state, Config.advance meaning steps ⟨code, after, state⟩ = .inr outcome →
    Allowed guard meaning ⟨code, after, state⟩ →
    ∃ whole : Behaviour ρ, code.Runs guard meaning (following after) state whole ∧
      ∀ last, whole.step = .next last → ∃ fewer ≤ steps,
        Config.advance meaning fewer ⟨.halt, after, last⟩ = .inr outcome ∧
          Allowed guard meaning ⟨.halt, after, last⟩

/-- The same of a loop that is tested, be it for the first time or again. -/
private def ToldLoop (guard : Code → State ρ → Prop) (meaning : Meaning ρ) (outcome : Outcome ρ)
    (steps : Nat) : Prop :=
  ∀ body rest after state, Config.advance meaning steps ⟨.loop body rest, after, state⟩ = .inr outcome →
    (∀ next, Config.step meaning ⟨.loop body rest, after, state⟩ = .inl next → Allowed guard meaning next) →
    ∃ first : Behaviour ρ, Loop (body.Runs guard meaning (rest.extensions + following after)) state first ∧
      ∀ last, first.step = .next last → ∃ fewer < steps,
        Config.advance meaning fewer ⟨rest, after, last⟩ = .inr outcome ∧
          Allowed guard meaning ⟨rest, after, last⟩

private theorem toldLoop {guard : Code → State ρ → Prop} {outcome : Outcome ρ} (steps : Nat)
    (told : ∀ fewer < steps, Told guard meaning outcome fewer)
    (toldAgain : ∀ fewer < steps, ToldLoop guard meaning outcome fewer) :
    ToldLoop guard meaning outcome steps := by
  intro body rest after state ends allowed
  cases steps with
  | zero => cases ends
  | succ steps =>
    cases set : state.isSet with
    | false =>
      have step : Config.step meaning ⟨.loop body rest, after, state⟩ = .inl ⟨rest, after, state⟩ := by
        simp [Config.step, set]
      rw [(advance_step step steps).1] at ends
      exact ⟨.stay state, .skip set, fun last same => by cases same; exact ⟨steps, by omega, ends, allowed _ step⟩⟩
    | true =>
      have step : Config.step meaning ⟨.loop body rest, after, state⟩ =
          .inl ⟨body, .loop body rest :: after, state⟩ := by
        simp [Config.step, set]
      rw [(advance_step step steps).1] at ends
      obtain ⟨⟨seen, last⟩, run, continues⟩ := told steps (by omega) _ _ _ ends (allowed _ step)
      rw [following_loop] at run
      cases last with
      | ended last => exact ⟨_, .ended set run, by simp⟩
      | failed error last => exact ⟨_, .failed set run, by simp⟩
      | next next =>
        obtain ⟨fewer, bound, endsAfter, allowedAfter⟩ := continues next rfl
        cases fewer with
        | zero => cases endsAfter
        | succ fewer =>
          have back : Config.step meaning ⟨.halt, .loop body rest :: after, next⟩ =
              .inl ⟨.loop body rest, after, next⟩ := rfl
          rw [(advance_step back fewer).1] at endsAfter
          obtain ⟨last, loop, continues⟩ := toldAgain fewer (by omega) _ _ _ _ endsAfter
            fun tested stepped body state starts => allowedAfter body state (.back stepped starts)
          refine ⟨_, .again set run loop, fun state same => ?_⟩
          obtain ⟨fewest, least, found⟩ := continues state same
          exact ⟨fewest, by omega, found⟩

private theorem told {guard : Code → State ρ → Prop} {outcome : Outcome ρ} (steps : Nat) :
    Told guard meaning outcome steps ∧ ToldLoop guard meaning outcome steps := by
  induction steps using Nat.strongRecOn with
  | ind steps ih =>
    have again := toldLoop steps (fun fewer bound => (ih fewer bound).1) (fun fewer bound => (ih fewer bound).2)
    refine ⟨?_, again⟩
    intro code after state ends allowed
    cases code with
    | halt => exact ⟨.stay state, rfl, fun last same => by cases same; exact ⟨steps, Nat.le_refl _, ends, allowed⟩⟩
    | token token rest =>
      cases steps with
      | zero => cases ends
      | succ steps =>
        cases performed : token.perform meaning 0 state with
        | ended last | failed error last =>
          refine ⟨token.act meaning (rest.extensions + following after) state, ?_, ?_⟩
          · simp only [Code.Runs, Token.act, performed, Behaviour.Leads]
          · intro last same
            simp [Token.act, performed] at same
        | next next =>
          have step : Config.step meaning ⟨.token token rest, after, state⟩ = .inl ⟨rest, after, next⟩ := by
            simp [Config.step, performed]
          rw [(advance_step step steps).1] at ends
          obtain ⟨whole, run, continues⟩ := (ih steps (by omega)).1 _ _ _ ends
            fun body state starts => allowed body state (.later (by simp) step starts)
          let seen := (token.act meaning (rest.extensions + following after) state).occurrences
          refine ⟨⟨seen ++ whole.occurrences, whole.step⟩, ?_, fun last same => ?_⟩
          · simp only [Code.Runs, Token.act, performed]
            exact ⟨whole, run, rfl⟩
          · obtain ⟨fewer, bound, found⟩ := continues last same
            exact ⟨fewer, by omega, found⟩
    | loop body rest =>
      obtain ⟨⟨seen, last⟩, loop, continues⟩ := again _ _ _ _ ends
        fun next step body state starts => allowed body state (.later (by simp) step starts)
      have start := allowed body state .here
      cases last with
      | ended last | failed error last => exact ⟨_, ⟨start, _, loop, rfl⟩, by simp⟩
      | next next =>
        obtain ⟨fewer, bound, endsAfter, allowedAfter⟩ := continues next rfl
        obtain ⟨whole, run, continues⟩ := (ih fewer bound).1 _ _ _ endsAfter allowedAfter
        refine ⟨_, ⟨start, _, loop, whole, run, rfl⟩, fun last same => ?_⟩
        obtain ⟨fewest, least, found⟩ := continues last same
        exact ⟨fewest, by omega, found⟩

end Config

/-- How a program ends that does nothing else. -/
def Behaviour.outcome {ρ : Type} (whole : Behaviour ρ) : Outcome ρ :=
  match whole.step with
  | .next state => .ended state
  | .ended state => .ended state
  | .failed error state => .failed error state

namespace Config

variable {ρ : Type} [Host ρ] {meaning : Meaning ρ}

/-- A program whose tree runs is run to its end by the machine, with enough steps. -/
theorem ends_of_runs {guard : Code → State ρ → Prop} {code : Code} {state : State ρ} {whole : Behaviour ρ}
    (runs : code.Runs guard meaning 0 state whole) :
    ∃ enough, ∀ fuel ≥ enough, Config.run? meaning fuel ⟨code, [], state⟩ = some whole.outcome ∧
      Config.occurrences meaning fuel ⟨code, [], state⟩ = whole.occurrences := by
  have takes := takes_of_runs [] runs
  obtain ⟨seen, last⟩ := whole
  cases last with
  | next last =>
    obtain ⟨steps, taken⟩ := takes
    refine ⟨steps + 1, fun fuel bound => ?_⟩
    obtain ⟨more, rfl⟩ := Nat.exists_eq_add_of_le bound
    have final := taken (1 + more)
    rw [Nat.add_assoc, run?, final.1, final.2, Nat.add_comm]
    simp [advance, step, Behaviour.outcome, occurrences, occurrence?]
  | ended last | failed error last =>
    obtain ⟨steps, taken⟩ := takes
    refine ⟨steps, fun fuel bound => ?_⟩
    obtain ⟨more, rfl⟩ := Nat.exists_eq_add_of_le bound
    rw [run?, (taken more).1, (taken more).2]
    exact ⟨rfl, rfl⟩

private theorem ended_mono {config : Config ρ} {outcome : Outcome ρ} {fuel : Nat}
    (ends : config.advance meaning fuel = .inr outcome) (more : Nat) :
    config.advance meaning (fuel + more) = .inr outcome ∧
      config.occurrences meaning (fuel + more) = config.occurrences meaning fuel := by
  induction fuel generalizing config with
  | zero => cases ends
  | succ fuel ih =>
    rw [Nat.add_right_comm]
    cases step : config.step meaning with
    | inl next =>
      rw [(advance_step step fuel).1] at ends
      rw [(advance_step step (fuel + more)).1, (advance_step step (fuel + more)).2, (advance_step step fuel).2,
        (ih ends).1, (ih ends).2]
      exact ⟨rfl, rfl⟩
    | inr last => simpa [advance, occurrences, step] using ends

/-- A program that the machine runs to its end has a tree that runs, if the guard lets in every loop
that the machine starts. -/
theorem runs_of_ends {guard : Code → State ρ → Prop} {code : Code} {state : State ρ} {fuel : Nat}
    {outcome : Outcome ρ} (ends : Config.run? meaning fuel ⟨code, [], state⟩ = some outcome)
    (allowed : Allowed guard meaning ⟨code, [], state⟩) :
    ∃ whole : Behaviour ρ, code.Runs guard meaning 0 state whole ∧ whole.outcome = outcome ∧
      whole.occurrences = Config.occurrences meaning fuel ⟨code, [], state⟩ := by
  have advanced : Config.advance meaning fuel ⟨code, [], state⟩ = .inr outcome := by
    rw [run?] at ends
    split at ends
    · cases ends
    · rename_i last found
      rw [found, Option.some.inj ends]
  obtain ⟨whole, run, _⟩ := (told fuel).1 _ _ _ advanced allowed
  obtain ⟨enough, final⟩ := ends_of_runs run
  have later := ended_mono advanced enough
  have found := final (fuel + enough) (by omega)
  rw [run?, later.1, later.2] at found
  exact ⟨whole, run, (Option.some.inj found.1).symm, found.2.symm⟩

/-- More fuel does not change how a program ends. -/
theorem run?_mono {config : Config ρ} {outcome : Outcome ρ} {fuel : Nat}
    (ends : config.run? meaning fuel = some outcome) (more : Nat) :
    config.run? meaning (fuel + more) = some outcome := by
  rw [run?] at ends
  split at ends
  · cases ends
  · rename_i last found
    rw [run?, (ended_mono found more).1]
    exact ends

/-- A program ends in one way, however many steps are allowed. -/
theorem run?_unique {config : Config ρ} {outcome other : Outcome ρ} {fuel more : Nat}
    (ends : config.run? meaning fuel = some outcome) (endsOther : config.run? meaning more = some other) :
    outcome = other := by
  have first := run?_mono ends more
  have second := run?_mono endsOther fuel
  rw [Nat.add_comm] at second
  exact Option.some.inj (first.symm.trans second)

end Config
end TapeScript
