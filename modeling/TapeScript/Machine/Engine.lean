import TapeScript.Extension
import TapeScript.Machine.Code

/-! What the statements of extensions do. One of them belongs to the library, the one that shows the cells around
the pointer. All others are written by users and can say anything: what they do is not decided here but by an
engine, and whatever is said of programs is said for every engine. -/
namespace TapeScript

/-- What runs the statements of users. As a rule a statement is a step of its own, which takes the state of the
program to another one, ends the program, or fails. A script in which statements are more than that is run as a
whole: it may not be well formed, or some statement may leave a loop or keep something for another. Either way an
engine gets at the program and its surroundings and at nothing else. -/
structure Engine (ρ : Type) where
  execute : String → State ρ → Step ρ
  isWhole : String → Bool
  runWhole? : String → ρ → Option (Outcome ρ)

/-- An engine to which every statement is a step of its own. -/
def Engine.ofStatements {ρ : Type} (execute : String → State ρ → Step ρ) : Engine ρ where
  execute
  isWhole _ := false
  runWhole? _ _ := none

namespace Extension

variable {ρ : Type} [Host ρ]

/-- Execute the statement of a symbol. A symbol without a statement does nothing. -/
def perform (engine : Engine ρ) (extensions : List Extension) (symbol? : Option String) (state : State ρ) : Step ρ :=
  match template? extensions symbol? with
  | none => .next state
  | some template => if template = Script.dump then .next state.dump else engine.execute template state

end Extension
end TapeScript
