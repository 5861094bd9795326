import TapeScript.Error

/-! What a running program asks of its surroundings. -/
namespace TapeScript

/-- Put out the low byte of a number, ask for the next line of input, if there is one, and show cells with the
position of the pointer relative to its start. -/
class Host (ρ : Type) where
  write : Int → ρ → ρ
  readLine : ρ → Except Error (Option String) × ρ
  debug : List Int32 → Int → ρ → ρ

end TapeScript
