import TapeScript.Machine.State
import TapeScript.Token
import TapeScript.Script.Count

/-! What a token of the stream does to the state of the running program. -/
namespace TapeScript

/-- What the meaning of tokens depends on: the end of input, and the effect of extensions. -/
structure Meaning (ρ : Type) where
  eof : EndOfInput
  extension : Option String → State ρ → Step ρ

/-- Go on with another step, unless the program is over. -/
def Step.bind {ρ : Type} (step : Step ρ) (continuation : State ρ → Step ρ) : Step ρ :=
  match step with
  | .next state => continuation state
  | .ended state => .ended state
  | .failed error state => .failed error state

/-- How often a reduced loop runs from a given origin. -/
def iterations (divisor : Int) (origin : Int32) : UInt32 :=
  match CountFormula.ofDivisor divisor with
  | .ok count => count.value origin
  | .error _ => 0

namespace State

variable {ρ : Type}

/-- Add a multiple of the current cell to the one at an offset. With no current cell there is nothing
to multiply, and the other cell, if there is one, becomes zero. -/
def addScaled (offset factor : Int) : State ρ → State ρ
  | ⟨tape, pointer, pending, host⟩ =>
    match tape.read? pointer with
    | some origin =>
      ⟨tape.add (pointer + offset) (origin * Int32.ofInt factor), pointer, pending, host⟩
    | none => ⟨tape.write (pointer + offset) 0, pointer, pending, host⟩

/-- Change a cell in a reduced loop, by all its iterations at once. -/
def mulAdd (offset amount divisor : Int) (count : UInt32) (state : State ρ) : State ρ :=
  if divisor = 1 ∨ divisor = -1 then state.addScaled offset (amount * divisor)
  else state.add offset (count.toInt32 * Int32.ofInt amount)

/-- Take a step only if the current cell is set. -/
def whenSet (change : State ρ → State ρ) (state : State ρ) : State ρ :=
  if state.isSet then change state else state

end State

namespace Token

variable {ρ : Type} [Host ρ]

mutual

/-- Perform one token. `count` is the iteration count of the reduced loop that it is part of. -/
def perform (meaning : Meaning ρ) (count : UInt32) : Token → State ρ → Step ρ
  | ⟨kind, amount, offset, divisor?, body?, symbol?⟩, state =>
    match kind with
    | .inc => .next (state.add 0 (Int32.ofInt amount))
    | .dec => .next (state.add 0 (Int32.ofInt (-amount)))
    | .clear => .next (state.put 0 0)
    | .right => .next (state.move amount)
    | .left => .next (state.move (-amount))
    | .scanRight => .next state.seekRight
    | .scanLeft => .next state.seekLeft
    | .input => state.input meaning.eof
    | .output => .next state.output
    | .extension => meaning.extension symbol? state
    | .addAt => .next (state.add offset (Int32.ofInt amount))
    | .clearAt => .next (state.put offset 0)
    | .addMove => .next ((state.add 0 (Int32.ofInt amount)).move offset)
    | .moveAdd => .next ((state.move offset).add 0 (Int32.ofInt amount))
    | .moveClear => .next ((state.move offset).put 0 0)
    | .reduced =>
      let divisor := loopDivisor { kind, body? }
      let origin := state.tape.read state.pointer
      performBody meaning (if divisor = 0 then count else iterations divisor origin) body? state
    | .mulAdd => .next (state.mulAdd offset amount (divisor { kind, divisor? }) count)
    | .condAdd => .next (state.whenSet (·.add offset (Int32.ofInt amount)))
    | .condClear => .next (state.whenSet (·.put offset 0))
    | .loopOpen | .loopClose | .unknown _ => .next state

/-- Perform the statements of a reduced loop. -/
def performBody (meaning : Meaning ρ) (count : UInt32) : Option (List Token) → State ρ → Step ρ
  | none, state => .next state
  | some tokens, state => performAll meaning count tokens state

/-- Perform statements one after the other. -/
def performAll (meaning : Meaning ρ) (count : UInt32) : List Token → State ρ → Step ρ
  | [], state => .next state
  | token :: tokens, state => (perform meaning count token state).bind (performAll meaning count tokens)

end
end Token
end TapeScript
