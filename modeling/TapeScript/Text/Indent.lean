/-! Indentation of a block of text by one level of four spaces. -/
namespace TapeScript.Text

def margin : List Char := [' ', ' ', ' ', ' ']

/-- The text without its last line break, if it ends in one. -/
def dropFinalBreak (text : List Char) : List Char :=
  if text.getLast? = some '\n' then text.dropLast else text

/-- A margin after every line break. -/
def nestBreaks (text : List Char) : List Char :=
  text.flatMap fun c => if c = '\n' then c :: margin else [c]

def nestChars (text : List Char) : List Char :=
  margin ++ nestBreaks (dropFinalBreak text) ++ ['\n']

/-- Every line one level deeper; the result ends in a line break. -/
def nest (text : String) : String := String.ofList (nestChars text.toList)

/-- Indent by so many levels. -/
def nestBy : Nat → String → String
  | 0, text => text
  | levels + 1, text => nest (nestBy levels text)

end TapeScript.Text
