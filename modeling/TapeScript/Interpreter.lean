import TapeScript.Brackets
import TapeScript.Machine.State
import TapeScript.Source

/-! The reference interpreter: it runs source text one instruction at a time, and jumps between
brackets. A bracket without a partner does nothing. -/
namespace TapeScript.Interpreter

inductive Instruction where
  | inc | dec | right | left | loopOpen | loopClose | output | input
  deriving DecidableEq, Repr

def Instruction.ofChar? : Char → Option Instruction
  | '+' => some .inc
  | '-' => some .dec
  | '>' => some .right
  | '<' => some .left
  | '[' => some .loopOpen
  | ']' => some .loopClose
  | '.' => some .output
  | ',' => some .input
  | _ => none

/-- Instructions with the partner of each bracket among them. -/
structure Program where
  code : Array Instruction
  partner : Array (Option Nat)

/-- The program of a source text; characters that are no instruction are comment. -/
def Program.ofSource (source : String) : Program :=
  let code := source.toList.filterMap Instruction.ofChar?
  { code := code.toArray
    partner := (Brackets.partners (· == .loopOpen) (· == .loopClose) code).toArray }

/-- The partner of the instruction at a position. -/
def Program.partner? (program : Program) (position : Nat) : Option Nat :=
  program.partner[position]?.join

/-- How a run ended: past its last instruction, at an input instruction that found no input, or with more
instructions than allowed. -/
inductive Status where
  | done
  | halted
  | limit
  | failed (error : Error)
  deriving DecidableEq, Repr

def Status.name : Status → String
  | done => "done"
  | halted => "halted"
  | limit => "limit"
  | failed _ => "failed"

/-- The end of a run. The steps include the instruction that ended it. -/
structure Final (ρ : Type) where
  status : Status
  steps : Nat
  state : State ρ

/-- A run under way, at the next instruction. -/
structure Config (ρ : Type) where
  position : Nat
  steps : Nat
  state : State ρ

variable {ρ : Type} [Host ρ]

/-- Where to go on after a bracket that jumps if `jumps` holds. -/
def Program.jump (program : Program) (position : Nat) (jumps : Bool) : Nat :=
  if jumps then (program.partner? position).getD position + 1 else position + 1

@[inline]
def Config.step (program : Program) (eof : EndOfInput) : Config ρ → Config ρ ⊕ Final ρ
  | ⟨position, steps, state⟩ =>
    match program.code[position]? with
    | none => .inr ⟨.done, steps, state⟩
    | some .inc => .inl ⟨position + 1, steps + 1, state.add 0 1⟩
    | some .dec => .inl ⟨position + 1, steps + 1, state.add 0 (-1)⟩
    | some .right => .inl ⟨position + 1, steps + 1, state.move 1⟩
    | some .left => .inl ⟨position + 1, steps + 1, state.move (-1)⟩
    | some .loopOpen =>
      let jumps := !state.isSet
      .inl ⟨program.jump position jumps, steps + 1, state⟩
    | some .loopClose =>
      let jumps := state.isSet
      .inl ⟨program.jump position jumps, steps + 1, state⟩
    | some .output => .inl ⟨position + 1, steps + 1, state.output⟩
    | some .input =>
      match state.input eof with
      | .next state => .inl ⟨position + 1, steps + 1, state⟩
      | .ended state => .inr ⟨.halted, steps + 1, state⟩
      | .failed error state => .inr ⟨.failed error, steps + 1, state⟩

/-- Execute at most so many instructions: the run as it is then, or its end. -/
def Config.advance (program : Program) (eof : EndOfInput) : Nat → Config ρ → Config ρ ⊕ Final ρ
  | 0, config => .inl config
  | steps + 1, config =>
    match config.step program eof with
    | .inl config => advance program eof steps config
    | .inr final => .inr final

/-- The run of a program up to so many instructions. One instruction beyond them ends it at the
limit, before it has any effect. -/
def runWithin (program : Program) (eof : EndOfInput) (limit : Nat) (state : State ρ) : Final ρ :=
  match Config.advance program eof limit ⟨0, 0, state⟩ with
  | .inr final => final
  | .inl config =>
    let status := if config.position < program.code.size then .limit else .done
    let steps := if config.position < program.code.size then config.steps + 1 else config.steps
    ⟨status, steps, config.state⟩

/-- The run of a program to its end, if it gets there within so many instructions. -/
def run? (program : Program) (eof : EndOfInput) (fuel : Nat) (state : State ρ) : Option (Final ρ) :=
  let final := runWithin program eof fuel state
  if final.status = .limit then none else some final

/-- The run of a source text, at most `limit?` instructions of it if there is a limit, and at most
`fuel` otherwise. -/
def runSource? (fuel : Nat) (limit? : Option Nat) (source : String) (literal? : Option Literal)
    (eof : EndOfInput) (host : ρ) : Option (Final ρ) :=
  let program := Program.ofSource source
  let state := State.start literal? host
  match limit? with
  | some limit => some (runWithin program eof limit state)
  | none => run? program eof fuel state

end TapeScript.Interpreter
