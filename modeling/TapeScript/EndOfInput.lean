/-! The ways a program can go on when its input is used up. -/
namespace TapeScript

/-- What an input instruction does when there is no input left. -/
inductive EndOfInput where
  | halt
  | zero
  | unchanged
  deriving DecidableEq, Repr

namespace EndOfInput

def all : List EndOfInput := [halt, zero, unchanged]

def name : EndOfInput → String
  | halt => "halt"
  | zero => "zero"
  | unchanged => "unchanged"

def ofName? (name : String) : Option EndOfInput := all.find? (·.name == name)

end EndOfInput

end TapeScript
