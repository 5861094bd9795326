import TapeScript.Machine.Perform

/-! Running a stream. Its loops are nested, so the stream is read as a tree, and a running program is
what is left of the innermost loop with what comes after each loop around it. -/
namespace TapeScript

/-- A stream with its loops as trees. -/
inductive Code where
  | halt
  | token (token : Token) (rest : Code)
  | loop (body rest : Code)
  deriving Repr

namespace Code

/-- Put a token in front of a stream read from its end: the code since the innermost loop that is
open, and the code after each of the loops that are. -/
def prepend (token : Token) : Option (Code × List Code) → Option (Code × List Code)
  | none => none
  | some (code, after) =>
    match token.kind with
    | .loopClose => some (.halt, code :: after)
    | .loopOpen =>
      match after with
      | [] => none
      | rest :: after => some (.loop code rest, after)
    | _ => some (.token token code, after)

/-- The tree of a stream; none unless its loop markers are balanced. -/
def ofTokens? (tokens : List Token) : Option Code :=
  match tokens.foldr prepend (some (.halt, [])) with
  | some (code, []) => some code
  | _ => none

end Code

/-- A running program: what follows after the code comes innermost loop first. -/
structure Config (ρ : Type) where
  code : Code
  after : List Code
  state : State ρ

/-- How a program ended. -/
inductive Outcome (ρ : Type) where
  | ended (state : State ρ)
  | failed (error : Error) (state : State ρ)

namespace Outcome

variable {ρ : Type}

def state : Outcome ρ → State ρ
  | ended state => state
  | failed _ state => state

def toExcept : Outcome ρ → Except Error (State ρ)
  | ended state => .ok state
  | failed error _ => .error error

end Outcome

namespace Config

variable {ρ : Type} [Host ρ]

/-- One step of a running program. -/
@[inline]
def step (meaning : Meaning ρ) : Config ρ → Config ρ ⊕ Outcome ρ
  | ⟨.halt, [], state⟩ => .inr (.ended state)
  | ⟨.halt, code :: after, state⟩ => .inl ⟨code, after, state⟩
  | ⟨.token token rest, after, state⟩ =>
    match token.perform meaning 0 state with
    | .next state => .inl ⟨rest, after, state⟩
    | .ended state => .inr (.ended state)
    | .failed error state => .inr (.failed error state)
  | ⟨.loop body rest, after, state⟩ =>
    if state.isSet then .inl ⟨body, .loop body rest :: after, state⟩ else .inl ⟨rest, after, state⟩

/-- At most so many steps: what is left of the program then, or how it ended. -/
def advance (meaning : Meaning ρ) : Nat → Config ρ → Config ρ ⊕ Outcome ρ
  | 0, config => .inl config
  | steps + 1, config =>
    match config.step meaning with
    | .inl config => advance meaning steps config
    | .inr outcome => .inr outcome

/-- Run a program to its end, if it gets there within so many steps. -/
def run? (meaning : Meaning ρ) (fuel : Nat) (config : Config ρ) : Option (Outcome ρ) :=
  match config.advance meaning fuel with
  | .inl _ => none
  | .inr outcome => some outcome

end Config

end TapeScript
