import TapeScript.Proofs.Machine.Engine

/-! Surroundings that answer alike. A program that runs in one of them runs in the other, step by step, and
they stay related; so what every request of a program keeps, its whole run keeps. -/
namespace TapeScript

variable {ρ σ : Type} [Host ρ] [Host σ] {related broken : ρ → σ → Prop}

/-- Equal results, and surroundings that depend on whether they are errors. -/
inductive Host.Answers {α : Type} (related broken : ρ → σ → Prop) : Except Error α × ρ → Except Error α × σ → Prop where
  | ok (value : α) {host : ρ} {other : σ} (hosts : related host other) :
      Answers related broken (.ok value, host) (.ok value, other)
  | error (error : Error) {host : ρ} {other : σ} (hosts : broken host other) :
      Answers related broken (.error error, host) (.error error, other)

/-- Related surroundings give the same lines and stay related. After a read that failed they may be related
in another way. -/
structure Host.Correspond (related broken : ρ → σ → Prop) : Prop where
  write : ∀ value {host other}, related host other → related (Host.write value host) (Host.write value other)
  debug : ∀ cells position {host other}, related host other →
    related (Host.debug cells position host) (Host.debug cells position other)
  readLine : ∀ {host other}, related host other →
    Host.Answers related broken (Host.readLine host) (Host.readLine other)

/-- States that are equal up to their surroundings. -/
inductive State.Related (related : ρ → σ → Prop) : State ρ → State σ → Prop where
  | intro {tape : Tape} {pointer : Int} {pending : List UInt8} {host : ρ} {other : σ} (hosts : related host other) :
      Related related ⟨tape, pointer, pending, host⟩ ⟨tape, pointer, pending, other⟩

inductive Step.Related (related broken : ρ → σ → Prop) : Step ρ → Step σ → Prop where
  | next {state : State ρ} {other : State σ} (states : State.Related related state other) :
      Related related broken (.next state) (.next other)
  | ended {state : State ρ} {other : State σ} (states : State.Related related state other) :
      Related related broken (.ended state) (.ended other)
  | failed {error : Error} {state : State ρ} {other : State σ} (states : State.Related broken state other) :
      Related related broken (.failed error state) (.failed error other)

inductive Outcome.Related (related broken : ρ → σ → Prop) : Outcome ρ → Outcome σ → Prop where
  | ended {state : State ρ} {other : State σ} (states : State.Related related state other) :
      Related related broken (.ended state) (.ended other)
  | failed {error : Error} {state : State ρ} {other : State σ} (states : State.Related broken state other) :
      Related related broken (.failed error state) (.failed error other)

/-- Meanings under which extensions keep states related. -/
structure Meaning.Related (related broken : ρ → σ → Prop) (meaning : Meaning ρ) (other : Meaning σ) : Prop where
  eof : meaning.eof = other.eof
  extension : ∀ symbol? {state : State ρ} {stateOther : State σ}, State.Related related state stateOther →
    Step.Related related broken (meaning.extension symbol? state) (other.extension symbol? stateOther)

namespace State.Related

variable {state : State ρ} {other : State σ}

omit [Host ρ] [Host σ]

theorem isSet (states : Related related state other) : state.isSet = other.isSet := by
  cases states
  rfl

theorem origin (states : Related related state other) :
    state.tape.read state.pointer = other.tape.read other.pointer := by
  cases states
  rfl

theorem move (states : Related related state other) (distance : Int) :
    Related related (state.move distance) (other.move distance) := by
  obtain ⟨hosts⟩ := states
  exact ⟨hosts⟩

theorem add (states : Related related state other) (offset : Int) (delta : Int32) :
    Related related (state.add offset delta) (other.add offset delta) := by
  obtain ⟨hosts⟩ := states
  exact ⟨hosts⟩

theorem put (states : Related related state other) (offset : Int) (value : Int32) :
    Related related (state.put offset value) (other.put offset value) := by
  obtain ⟨hosts⟩ := states
  exact ⟨hosts⟩

theorem seekRight (states : Related related state other) : Related related state.seekRight other.seekRight := by
  obtain ⟨hosts⟩ := states
  exact ⟨hosts⟩

theorem seekLeft (states : Related related state other) : Related related state.seekLeft other.seekLeft := by
  obtain ⟨hosts⟩ := states
  exact ⟨hosts⟩

theorem addScaled (states : Related related state other) (offset factor : Int) :
    Related related (state.addScaled offset factor) (other.addScaled offset factor) := by
  obtain ⟨hosts⟩ := states
  rw [State.addScaled, State.addScaled]
  split <;> exact ⟨hosts⟩

theorem mulAdd (states : Related related state other) (offset amount divisor : Int) (count : UInt32) :
    Related related (state.mulAdd offset amount divisor count) (other.mulAdd offset amount divisor count) := by
  rw [State.mulAdd, State.mulAdd]
  split
  · exact states.addScaled ..
  · exact states.add ..

theorem whenSet {change : State ρ → State ρ} {changeOther : State σ → State σ} (states : Related related state other)
    (changed : Related related (change state) (changeOther other)) :
    Related related (state.whenSet change) (other.whenSet changeOther) := by
  rw [State.whenSet, State.whenSet, states.isSet]
  split
  · exact changed
  · exact states

end State.Related

variable {state : State ρ} {other : State σ}

namespace State.Related

theorem emit (correspond : Host.Correspond related broken) (states : Related related state other) (value : Int) :
    Related related (state.emit value) (other.emit value) := by
  obtain ⟨hosts⟩ := states
  exact ⟨correspond.write value hosts⟩

theorem output (correspond : Host.Correspond related broken) (states : Related related state other) :
    Related related state.output other.output := by
  rw [State.output, State.output, states.origin]
  exact states.emit correspond _

theorem dump (correspond : Host.Correspond related broken) (states : Related related state other) :
    Related related state.dump other.dump := by
  obtain ⟨hosts⟩ := states
  exact ⟨correspond.debug _ _ hosts⟩

theorem readByte (correspond : Host.Correspond related broken) (states : Related related state other) :
    Host.Answers (Related related) (Related broken) state.readByte other.readByte := by
  obtain @⟨tape, pointer, pending, host, hostOther, hosts⟩ := states
  cases pending with
  | cons byte pending => exact .ok (some byte) ⟨hosts⟩
  | nil =>
    have answers := correspond.readLine hosts
    rw [State.readByte, State.readByte]
    generalize Host.readLine host = read at answers
    generalize Host.readLine hostOther = readOther at answers
    cases answers with
    | error error after => exact .error error ⟨after⟩
    | ok line? after =>
      cases line? with
      | none => exact .ok none ⟨after⟩
      | some line =>
        cases bytes : terminated (Text.utf8 line) with
        | nil => simpa only [bytes] using .ok none ⟨after⟩
        | cons byte rest => simpa only [bytes] using .ok (some byte) ⟨after⟩

theorem input (correspond : Host.Correspond related broken) (states : Related related state other) (mode : EndOfInput) :
    Step.Related related broken (state.input mode) (other.input mode) := by
  have answers := states.readByte correspond
  rw [State.input, State.input]
  generalize state.readByte = read at answers
  generalize other.readByte = readOther at answers
  cases answers with
  | error error after => exact .failed after
  | ok byte? after =>
    cases byte? with
    | some byte => exact .next (after.put _ _)
    | none =>
      cases mode with
      | halt => exact .ended after
      | zero => exact .next (after.put _ _)
      | unchanged => exact .next after

end State.Related

omit [Host ρ] [Host σ] in
theorem Step.Related.bind {step : Step ρ} {stepOther : Step σ} {continuation : State ρ → Step ρ}
    {continuationOther : State σ → Step σ} (steps : Step.Related related broken step stepOther)
    (continues : ∀ {next nextOther}, State.Related related next nextOther →
      Step.Related related broken (continuation next) (continuationOther nextOther)) :
    Step.Related related broken (step.bind continuation) (stepOther.bind continuationOther) := by
  cases steps with
  | next states => exact continues states
  | ended states => exact .ended states
  | failed states => exact .failed states

/-- Without extensions programs mean the same everywhere. -/
theorem Compilation.meaning_related {compilation : Compilation} (plain : compilation.options.extensions = [])
    (engine : Engine ρ) (engineOther : Engine σ) :
    Meaning.Related related broken (compilation.meaning engine) (compilation.meaning engineOther) where
  eof := rfl
  extension symbol? _ _ states := by
    simp only [meaning, Extension.perform, Extension.template?, plain]
    exact .next states

namespace Token

variable {meaning : Meaning ρ} {meaningOther : Meaning σ}

-- The induction follows the statements of reduced loops.
mutual

theorem perform_related (correspond : Host.Correspond related broken)
    (meanings : Meaning.Related related broken meaning meaningOther) (count : UInt32) :
    ∀ (token : Token) {state : State ρ} {other : State σ}, State.Related related state other →
      Step.Related related broken (token.perform meaning count state) (token.perform meaningOther count other)
  | ⟨kind, amount, offset, divisor?, body?, symbol?⟩, state, other, states => by
    cases kind with
    | inc | dec => exact .next (states.add ..)
    | clear => exact .next (states.put ..)
    | right | left => exact .next (states.move _)
    | scanRight => exact .next states.seekRight
    | scanLeft => exact .next states.seekLeft
    | input =>
      rw [perform, perform, meanings.eof]
      exact states.input correspond _
    | output => exact .next (states.output correspond)
    | extension => exact meanings.extension symbol? states
    | addAt => exact .next (states.add ..)
    | clearAt => exact .next (states.put ..)
    | addMove => exact .next ((states.add ..).move _)
    | moveAdd => exact .next ((states.move _).add ..)
    | moveClear => exact .next ((states.move _).put ..)
    | reduced =>
      rw [perform, perform, states.origin]
      exact performBody_related correspond meanings _ body? states
    | mulAdd => exact .next (states.mulAdd ..)
    | condAdd => exact .next (states.whenSet (states.add ..))
    | condClear => exact .next (states.whenSet (states.put ..))
    | loopOpen | loopClose | unknown => exact .next states

theorem performBody_related (correspond : Host.Correspond related broken)
    (meanings : Meaning.Related related broken meaning meaningOther) (count : UInt32) :
    ∀ (body? : Option (List Token)) {state : State ρ} {other : State σ}, State.Related related state other →
      Step.Related related broken (performBody meaning count body? state) (performBody meaningOther count body? other)
  | none, _, _, states => .next states
  | some tokens, _, _, states => performAll_related correspond meanings count tokens states

theorem performAll_related (correspond : Host.Correspond related broken)
    (meanings : Meaning.Related related broken meaning meaningOther) (count : UInt32) :
    ∀ (tokens : List Token) {state : State ρ} {other : State σ}, State.Related related state other →
      Step.Related related broken (performAll meaning count tokens state) (performAll meaningOther count tokens other)
  | [], _, _, states => .next states
  | token :: tokens, _, _, states =>
    (perform_related correspond meanings count token states).bind
      fun after => performAll_related correspond meanings count tokens after

end
end Token

namespace Config

variable {meaning : Meaning ρ} {meaningOther : Meaning σ}

/-- A program under way in corresponding surroundings, or its end in them. -/
inductive Related (related broken : ρ → σ → Prop) : Config ρ ⊕ Outcome ρ → Config σ ⊕ Outcome σ → Prop where
  | goes {code : Code} {after : List Code} {state : State ρ} {other : State σ}
      (states : State.Related related state other) :
      Related related broken (.inl ⟨code, after, state⟩) (.inl ⟨code, after, other⟩)
  | ends {outcome : Outcome ρ} {outcomeOther : Outcome σ}
    (outcomes : Outcome.Related related broken outcome outcomeOther) :
      Related related broken (.inr outcome) (.inr outcomeOther)

theorem step_related (correspond : Host.Correspond related broken)
    (meanings : Meaning.Related related broken meaning meaningOther) (code : Code) (after : List Code)
    (states : State.Related related state other) :
    Related related broken (step meaning ⟨code, after, state⟩) (step meaningOther ⟨code, after, other⟩) := by
  cases code with
  | halt =>
    cases after with
    | nil => exact .ends (.ended states)
    | cons code after => exact .goes states
  | token token rest =>
    have performed := token.perform_related correspond meanings 0 states
    rw [step, step]
    generalize token.perform meaning 0 state = first at performed
    generalize token.perform meaningOther 0 other = second at performed
    cases performed with
    | next states => exact .goes states
    | ended states => exact .ends (.ended states)
    | failed states => exact .ends (.failed states)
  | loop body rest =>
    rw [step, step, states.isSet]
    split
    · exact .goes states
    · exact .goes states

theorem advance_related (correspond : Host.Correspond related broken)
    (meanings : Meaning.Related related broken meaning meaningOther) (fuel : Nat) (code : Code) (after : List Code)
    (states : State.Related related state other) :
    Related related broken (advance meaning fuel ⟨code, after, state⟩)
      (advance meaningOther fuel ⟨code, after, other⟩) := by
  induction fuel generalizing code after state other with
  | zero => exact .goes states
  | succ fuel ih =>
    have stepped := step_related correspond meanings code after states
    rw [advance, advance]
    generalize step meaning ⟨code, after, state⟩ = first at stepped
    generalize step meaningOther ⟨code, after, other⟩ = second at stepped
    cases stepped with
    | goes states => exact ih _ _ states
    | ends outcomes => exact .ends outcomes

end Config

/-- A program run step by step ends in some surroundings after as many steps as in corresponding ones, and in a
related way. -/
theorem Compilation.run?_related (correspond : Host.Correspond related broken) {compilation : Compilation}
    {engine : Engine ρ} {engineOther : Engine σ}
    (stepwise : compilation.holdsStatements = false ∨ engine.isWhole compilation.script = false)
    (stepwiseOther : compilation.holdsStatements = false ∨ engineOther.isWhole compilation.script = false)
    (meanings : Meaning.Related related broken (compilation.meaning engine) (compilation.meaning engineOther))
    (fuel : Nat) {host : ρ} {other : σ} (hosts : related host other) :
    Option.Rel (Outcome.Related related broken) (compilation.run? engine fuel host)
      (compilation.run? engineOther fuel other) := by
  rw [run?_stepwise stepwise, run?_stepwise stepwiseOther]
  cases tree : Code.ofTokens? compilation.tokens with
  | none =>
    simp only [start?, tree, bind, Option.bind]
    exact .none
  | some code =>
    have start : State.Related related (.start compilation.options.input? host)
        (.start compilation.options.input? other) := ⟨hosts⟩
    have advanced := Config.advance_related correspond meanings fuel code [] start
    simp only [start?, tree, Config.run?, bind, Option.bind]
    generalize Config.advance (compilation.meaning engine) fuel
      ⟨code, [], .start compilation.options.input? host⟩ = first at advanced
    generalize Config.advance (compilation.meaning engineOther) fuel
      ⟨code, [], .start compilation.options.input? other⟩ = second at advanced
    cases advanced with
    | goes => exact .none
    | ends outcomes => exact .some outcomes

end TapeScript
