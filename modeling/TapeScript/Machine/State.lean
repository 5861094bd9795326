import TapeScript.EndOfInput
import TapeScript.Host
import TapeScript.Literal
import TapeScript.Tape

/-! The state of a running program, and the steps that reading and writing take on it. -/
namespace TapeScript

/-- The state of a program. Pending is the input taken from the literal or a line and not read yet. -/
structure State (ρ : Type) where
  tape : Tape
  pointer : Int
  pending : List UInt8
  host : ρ

/-- Where a step leads: on, to the end of the program, or to its failure. -/
inductive Step (ρ : Type) where
  | next (state : State ρ)
  | ended (state : State ρ)
  | failed (error : Error) (state : State ρ)

/-- The state after a step, the last one if the program is over. -/
def Step.state {ρ : Type} : Step ρ → State ρ
  | .next state | .ended state | .failed _ state => state

namespace State

variable {ρ : Type}

/-- The state before the first instruction. -/
def start (literal? : Option Literal) (host : ρ) : State ρ :=
  { tape := .blank, pointer := Tape.start, pending := Literal.buffer literal?, host }

/-- The pointer relative to where it started. -/
def relativePointer (state : State ρ) : Int := state.pointer - Tape.start

/-- Whether the current cell lets a loop go on. -/
def isSet (state : State ρ) : Bool := state.tape.isSet state.pointer

def move (distance : Int) : State ρ → State ρ
  | ⟨tape, pointer, pending, host⟩ => ⟨tape, pointer + distance, pending, host⟩

/-- Add to the cell at an offset. -/
def add (offset : Int) (delta : Int32) : State ρ → State ρ
  | ⟨tape, pointer, pending, host⟩ => ⟨tape.add (pointer + offset) delta, pointer, pending, host⟩

/-- Set the cell at an offset. -/
def put (offset : Int) (value : Int32) : State ρ → State ρ
  | ⟨tape, pointer, pending, host⟩ => ⟨tape.write (pointer + offset) value, pointer, pending, host⟩

def seekRight : State ρ → State ρ
  | ⟨tape, pointer, pending, host⟩ =>
    let target := tape.seekRight pointer
    ⟨tape, target, pending, host⟩

def seekLeft : State ρ → State ρ
  | ⟨tape, pointer, pending, host⟩ =>
    let target := tape.seekLeft pointer
    ⟨tape, target, pending, host⟩

variable [Host ρ]

def emit (value : Int) : State ρ → State ρ
  | ⟨tape, pointer, pending, host⟩ => ⟨tape, pointer, pending, Host.write value host⟩

/-- Put out the current cell; outside the tape that is a zero. -/
def output (state : State ρ) : State ρ :=
  let value := (state.tape.read state.pointer).toInt
  state.emit value

/-- Show the cells around the pointer. -/
def dump : State ρ → State ρ
  | ⟨tape, pointer, pending, host⟩ =>
    let cells := tape.slice (pointer - 8) (pointer + 8)
    ⟨tape, pointer, pending, Host.debug cells (pointer - Tape.start) host⟩

/-- The next byte of input. A line is asked for only when all bytes before it have been read; none
at the end of input. -/
def readByte : State ρ → Except Error (Option UInt8) × State ρ
  | ⟨tape, pointer, byte :: pending, host⟩ => (.ok (some byte), ⟨tape, pointer, pending, host⟩)
  | ⟨tape, pointer, [], host⟩ =>
    match Host.readLine host with
    | (.error error, host) => (.error error, ⟨tape, pointer, [], host⟩)
    | (.ok none, host) => (.ok none, ⟨tape, pointer, [], host⟩)
    | (.ok (some line), host) =>
      match terminated (Text.utf8 line) with
      | [] => (.ok none, ⟨tape, pointer, [], host⟩)
      | byte :: pending => (.ok (some byte), ⟨tape, pointer, pending, host⟩)

/-- Read a byte into the current cell. -/
def input (mode : EndOfInput) (state : State ρ) : Step ρ :=
  match state.readByte with
  | (.error error, state) => .failed error state
  | (.ok (some byte), state) => .next (state.put 0 (Int32.ofNat byte.toNat))
  | (.ok none, state) =>
    match mode with
    | .halt => .ended state
    | .zero => .next (state.put 0 0)
    | .unchanged => .next state

end State
end TapeScript
