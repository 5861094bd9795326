import TapeScript.Proofs.Machine.Engine
import TapeScript.Proofs.Tape

/-! The size of the tape. Nothing that a program does gives the tape a cell more or takes one away, so
wherever a program has come to, its tape has all the cells it started with. -/
namespace TapeScript

variable {ρ : Type}

namespace State

/-- How many cells the tape has. -/
def size (state : State ρ) : Nat := state.tape.size

variable (state : State ρ)

@[simp]
theorem size_move (distance : Int) : (state.move distance).size = state.size := rfl

@[simp]
theorem size_add (offset : Int) (delta : Int32) : (state.add offset delta).size = state.size :=
  state.tape.size_add _ _

@[simp]
theorem size_put (offset : Int) (value : Int32) : (state.put offset value).size = state.size :=
  state.tape.size_write _ _

@[simp]
theorem size_addScaled (offset factor : Int) : (state.addScaled offset factor).size = state.size := by
  rw [addScaled]
  split
  · exact state.tape.size_add _ _
  · exact state.tape.size_write _ _

@[simp]
theorem size_mulAdd (offset amount divisor : Int) (count : UInt32) :
    (state.mulAdd offset amount divisor count).size = state.size := by
  rw [mulAdd]
  split <;> simp

@[simp]
theorem size_whenSet {change : State ρ → State ρ} (keeps : (change state).size = state.size) :
    (state.whenSet change).size = state.size := by
  rw [whenSet]
  split
  · exact keeps
  · rfl

variable [Host ρ]

@[simp]
theorem size_readByte : state.readByte.2.size = state.size := by
  obtain ⟨tape, pointer, pending, host⟩ := state
  cases pending with
  | cons byte pending => rfl
  | nil =>
    rw [readByte]
    split
    · rfl
    · rfl
    · split <;> rfl

theorem size_input (mode : EndOfInput) : (state.input mode).state.size = state.size := by
  have read := state.size_readByte
  rw [input]
  generalize state.readByte = first at read
  obtain ⟨_ | _ | byte, after⟩ := first
  · exact read
  · cases mode with
    | halt | unchanged => exact read
    | zero => exact (after.size_put 0 0).trans read
  · exact (after.size_put 0 _).trans read

end State

variable [Host ρ] {meaning : Meaning ρ}

/-- A meaning under which no extension changes the size of the tape. -/
def Meaning.Sized (meaning : Meaning ρ) : Prop :=
  ∀ symbol? state, (meaning.extension symbol? state).state.size = state.size

/-- The statements of users are all that can change the size of the tape. -/
theorem Compilation.meaning_sized {engine : Engine ρ} {compilation : Compilation}
    (sized : ∀ extension ∈ compilation.options.extensions, extension.template ≠ Script.dump →
      ∀ state, (engine.execute extension.template state).state.size = state.size) :
    (compilation.meaning engine).Sized :=
  compilation.meaning_forall (fun state step => step.state.size = state.size) (fun _ => rfl) (fun _ => rfl) sized

namespace Token

-- The induction follows the statements of reduced loops.
mutual

theorem size_perform (sized : meaning.Sized) (count : UInt32) :
    ∀ (token : Token) (state : State ρ), (token.perform meaning count state).state.size = state.size
  | ⟨kind, amount, offset, divisor?, body?, symbol?⟩, state => by
    cases kind with
    | input => exact state.size_input _
    | reduced => exact size_performBody sized _ body? state
    | extension => exact sized symbol? state
    | inc | dec | clear | addAt | clearAt | addMove | moveAdd | moveClear | mulAdd | condAdd | condClear =>
      simp [perform, Step.state]
    | right | left | scanRight | scanLeft | output | loopOpen | loopClose | unknown => rfl

theorem size_performBody (sized : meaning.Sized) (count : UInt32) :
    ∀ (body? : Option (List Token)) (state : State ρ), (performBody meaning count body? state).state.size = state.size
  | none, _ => rfl
  | some tokens, state => size_performAll sized count tokens state

theorem size_performAll (sized : meaning.Sized) (count : UInt32) :
    ∀ (tokens : List Token) (state : State ρ), (performAll meaning count tokens state).state.size = state.size
  | [], _ => rfl
  | token :: tokens, state => by
    have first := size_perform sized count token state
    rw [performAll]
    cases performed : token.perform meaning count state with
    | next next =>
      rw [performed] at first
      exact (size_performAll sized count tokens next).trans first
    | ended | failed =>
      rw [performed] at first
      exact first

end
end Token

namespace Config

variable {config next : Config ρ}

theorem size_step (sized : meaning.Sized) (step : config.step meaning = .inl next) :
    next.state.size = config.state.size := by
  obtain ⟨code, after, state⟩ := config
  cases code with
  | halt =>
    cases after with
    | nil => cases step
    | cons => cases step; rfl
  | token token rest =>
    have performed := token.size_perform sized 0 state
    rw [Config.step] at step
    split at step
    · rename_i last same
      cases step
      rw [same] at performed
      exact performed
    · cases step
    · cases step
  | loop body rest =>
    rw [Config.step] at step
    split at step <;> cases step <;> rfl

theorem size_advance (sized : meaning.Sized) {steps : Nat} (reached : config.advance meaning steps = .inl next) :
    next.state.size = config.state.size := by
  induction steps generalizing config with
  | zero =>
    cases reached
    rfl
  | succ steps ih =>
    rw [advance] at reached
    split at reached
    · rename_i middle step
      exact (ih reached).trans (size_step sized step)
    · cases reached

end Config

/-- The tape of a program has its full size wherever the program has come to. -/
theorem Compilation.size_reached {compilation : Compilation} (sized : meaning.Sized) {host : ρ}
    {start config : Config ρ} {steps : Nat} (started : compilation.start? host = some start)
    (reached : start.advance meaning steps = .inl config) : config.state.size = Tape.fullSize := by
  obtain ⟨code, _, started⟩ := Option.bind_eq_some_iff.mp started
  cases started
  exact (Config.size_advance sized reached).trans Tape.size_blank

end TapeScript
