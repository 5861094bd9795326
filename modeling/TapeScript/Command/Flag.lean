/-! The flags of the command, and the help text that lists them. -/
namespace TapeScript.Command

/-- What a flag is about. -/
inductive Setting where
  | version | debug | output | basename | input | run | optimize | eof | extension | dump
  | validate | selfTest
  deriving DecidableEq, Repr

/-- A flag that takes a value says what the value stands for. -/
structure Flag where
  setting : Setting
  short? : Option Char
  long : String
  value? : Option String := none
  help : List String
  deriving Repr

namespace Flag

def all : List Flag := [
  { setting := .version, short? := some 'V', long := "version", help := ["output the version number"] },
  { setting := .debug, short? := some 'd', long := "debug", help := ["enable debugging"] },
  { setting := .output, short? := some 'o', long := "output", value? := some "<folder>"
    help := ["path to store compilation results (default:", "'built')"] },
  { setting := .basename, short? := some 'b', long := "basename", value? := some "<name>"
    help := ["basename of the output file (default: source file", "name)"] },
  { setting := .input, short? := some 'i', long := "input", value? := some "<text>"
    help := ["literal input, read before stdin"] },
  { setting := .run, short? := some 'r', long := "run", help := ["run the compiled program"] },
  { setting := .optimize, short? := some 'n', long := "no-optimize", help := ["don't optimize"] },
  { setting := .eof, short? := some 'e', long := "eof", value? := some "<mode>"
    help := ["end of input behavior: halt, zero, unchanged", "(default: halt)"] },
  { setting := .extension, short? := some 'x', long := "extension", value? := some "<sym=stmt>"
    help := ["add an instruction emitting a JS statement", "(default: [])"] },
  { setting := .dump, short? := none, long := "dump"
    help := ["enable '#' to dump cells around the pointer"] },
  { setting := .validate, short? := some 't', long := "validate"
    help := ["compare the compiled program with the interpreter"] },
  { setting := .selfTest, short? := some 'T', long := "self-test"
    help := ["validate all sample programs and random ones"] }]

/-- The flag's two forms and its value, as they are shown. -/
def usage (flag : Flag) : String :=
  let short := match flag.short? with
    | some c => "-" ++ String.singleton c ++ ", "
    | none => ""
  let value := match flag.value? with
    | some value => " " ++ value
    | none => ""
  short ++ "--" ++ flag.long ++ value

/-- The forms of the flag that asks for help. -/
def helpUsage : String := "-h, --help"

/-- Whether an argument asks for help. -/
def asksHelp (argument : String) : Bool := argument == "-h" || argument == "--help"

/-- The flag that an argument names in full. -/
def named? (argument : List Char) : Option Flag :=
  all.find? fun flag =>
    argument == '-' :: '-' :: flag.long.toList ||
      (flag.short?.map fun c => ['-', c]) == some argument

end Flag

/-- Columns taken by the forms of the flags in the help text. -/
def usageWidth : Nat := 26

/-- A flag in the help text, its explanation in a column of its own. -/
def helpEntry (usage : String) (help : List String) : List String :=
  let fill (text : String) : String :=
    "  " ++ text ++ String.ofList (List.replicate (usageWidth + 2 - text.length) ' ')
  match help with
  | [] => ["  " ++ usage]
  | first :: others => (fill usage ++ first) :: others.map (fill "" ++ ·)

def programName : String := "bfjs"

def versionText : String := "0.1.0"

def helpText : String :=
  let entries := Flag.all.map (fun flag => (flag.usage, flag.help)) ++
    [(Flag.helpUsage, ["display help for command"])]
  let lines := [s!"Usage: {programName} [options] [program]", "", "Options:"] ++
    entries.flatMap fun entry => helpEntry entry.1 entry.2
  String.join (lines.map (· ++ "\n"))

end TapeScript.Command
