import TapeScript.Error
import TapeScript.Script.Statement
import TapeScript.Text.Units

/-! Instructions added to the language by the user: a character and the statement it stands for. -/
namespace TapeScript

/-- The eight instructions that every program may use. -/
def coreSymbols : String := "+-<>[].,"

/-- A symbol and the statement emitted for every occurrence of it. -/
structure Extension where
  symbol : String
  template : String
  deriving DecidableEq, Repr

namespace Extension

/-- Accept a list of extensions whose symbols are single characters, new to the language and
different from each other and from the `seen` ones. -/
def checkAfter (seen : List String) : List Extension → Except Error Unit
  | [] => .ok ()
  | extension :: rest => do
    let symbol := extension.symbol
    Error.require (Text.length16 symbol == 1) (.symbolLength symbol)
    Error.require (!coreSymbols.toList.any (String.singleton · == symbol)) (.coreSymbol symbol)
    Error.require (!seen.contains symbol) (.duplicateSymbol symbol)
    checkAfter (symbol :: seen) rest

def check (extensions : List Extension) : Except Error Unit := checkAfter [] extensions

/-- The statement of a symbol: the first extension that has it decides. -/
def template? (extensions : List Extension) (symbol? : Option String) : Option String :=
  (extensions.find? fun extension => some extension.symbol == symbol?).map (·.template)

/-- An instruction that shows the cells around the pointer. -/
def dump : Extension := { symbol := "#", template := Script.dump }

end Extension
end TapeScript
