import TapeScript.Random
import TapeScript.Text.Units
import TapeScript.Validation

/-! Programs to try a compiler on. -/
namespace TapeScript

structure Sample where
  name : String
  source : String
  options? : Option CompileOptions := none
  lines? : Option (List String) := none
  deriving DecidableEq, Repr

namespace Sample

def literal (text : String) : Option Literal := some (.text text)

/-- The programs of the self-test. -/
def all : List Sample := [
  { name := "hi", source := "++++++++[>+++++++++<-]>.+." },
  { name := "echo", source := ",[.,]", options? := some { input? := literal "echo" } },
  { name := "add", source := ",>,[<+>-]<" ++ Random.copies '-' 48 ++ "."
    options? := some { input? := literal "34" } },
  { name := "nested", source := "++++[>++++[>++++<-]<-]>>." },
  { name := "halve", source := Random.copies '+' 130 ++ "[-->+<]>." },
  { name := "countUp", source := "-----[+>++<]>." },
  { name := "scan", source := ">+>++>+++>++++[<]>[.>]" },
  { name := "reverse", source := ">,[>,]<[.<]", options? := some { input? := literal "abc" } },
  { name := "lines", source := ",[.,]", options? := some { eof? := some .zero }
    lines? := some ["first", "second"] },
  { name := "once", source := "+++[>+++<[-]>>++<<]>.>." }]

/-- The sample of a name. -/
def find (name : String) : Except Error Sample :=
  match all.find? (·.name == name) with
  | some sample => .ok sample
  | none =>
    .error (.unknownSample name (all.map fun sample => (sample.name, Text.length16 sample.source)))

/-- A random program as a sample. Its reads past the end of input give zero. -/
def ofRandom (program : RandomProgram) : Sample where
  name := "random"
  source := program.source
  options? := some { input? := literal program.input, eof? := some .zero }

def options (sample : Sample) : CompileOptions := sample.options?.getD {}

def trial (sample : Sample) : Trial where
  source := sample.source
  lines := sample.lines?.getD []

/-- Whether the program ends within so many instructions under its own options; none if that is not
known after `fuel` instructions. -/
def endsWithin? (fuel : Nat) (limit? : Option Nat) (sample : Sample) : Option Bool := do
  let host := Collector.ofLines sample.trial.lines
  let final ← Interpreter.runSource? fuel limit? sample.source sample.options.input? sample.options.eof host
  some (final.status != .limit)

/-- The limit of instructions where none is given. -/
def defaultLimit : Nat := 50000

/-- Whether the program ends within the default limit. -/
def endsByDefault (sample : Sample) : Bool := sample.endsWithin? 0 (some defaultLimit) == some true

end Sample
end TapeScript
