import TapeScript.Command.Flag
import TapeScript.Command.Suggestion

/-! Reading the arguments of the command. Flags may stand anywhere before a double dash, short ones
may share a dash, and a value may follow its flag directly. -/
namespace TapeScript.Command

/-- What the flags ask for. -/
structure Settings where
  debug : Bool := false
  output? : Option String := none
  basename? : Option String := none
  input? : Option String := none
  run : Bool := false
  optimize : Bool := true
  eof? : Option String := none
  extensions : List String := []
  dump : Bool := false
  validate : Bool := false
  selfTest : Bool := false
  deriving DecidableEq, Repr

/-- Apply a flag with its value; the value is empty for flags that take none. -/
def Settings.apply (settings : Settings) (value : String) : Setting → Settings
  | .version => settings
  | .debug => { settings with debug := true }
  | .output => { settings with output? := some value }
  | .basename => { settings with basename? := some value }
  | .input => { settings with input? := some value }
  | .run => { settings with run := true }
  | .optimize => { settings with optimize := false }
  | .eof => { settings with eof? := some value }
  | .extension => { settings with extensions := settings.extensions ++ [value] }
  | .dump => { settings with dump := true }
  | .validate => { settings with validate := true }
  | .selfTest => { settings with selfTest := true }

/-- What is wrong with the arguments. -/
inductive ArgumentError where
  | missingValue (flag : Flag)
  | unknownFlag (argument : String)

/-- Names of all flags, the one for help included. -/
def flagNames : List String := Flag.all.map (·.long) ++ ["help"]

/-- A question after an unknown long flag that looks like a known one. -/
def flagQuestion (argument : String) : String :=
  match argument.toList with
  | '-' :: '-' :: word =>
    Suggestion.question ((Suggestion.similar (String.ofList word) flagNames).map ("--" ++ ·))
  | _ => ""

def ArgumentError.message : ArgumentError → String
  | missingValue flag =>
    let usage := flag.usage
    s!"error: option '{usage}' argument missing"
  | unknownFlag argument =>
    let question := flagQuestion argument
    s!"error: unknown option '{argument}'{question}"

/-- What the arguments come to. -/
inductive Request where
  | version
  | help
  | failure (error : ArgumentError)
  | command (settings : Settings) (operands : List String)

/-- Arguments read so far. From the first unknown flag on, what would be an operand is unknown too. -/
structure Reading where
  settings : Settings := {}
  operands : List String := []
  unknown : List String := []

/-- Take in arguments that are no flags. -/
def Reading.add (reading : Reading) (arguments : List String) : Reading :=
  if reading.unknown.isEmpty then { reading with operands := reading.operands ++ arguments }
  else { reading with unknown := reading.unknown ++ arguments }

def Reading.addUnknown (reading : Reading) (argument : String) : Reading :=
  { reading with unknown := reading.unknown ++ [argument] }

/-- The request once all arguments are read. -/
def Reading.finish (reading : Reading) : Request :=
  if reading.unknown.any Flag.asksHelp then .help
  else
    match reading.unknown with
    | [] => .command reading.settings reading.operands
    | argument :: _ => .failure (.unknownFlag argument)

/-- How an argument begins: a value may follow its flag directly, and short flags without one share a dash. -/
inductive Form where
  | separator
  | exact (flag : Flag)
  | valued (flag : Flag) (value : String)
  | shared (flag : Flag) (others : List Char)
  | unknownFlag
  | operand

/-- A long flag with a value after an equals sign. -/
def longValue? (argument : List Char) : Option (Flag × String) :=
  match Flag.named? (argument.takeWhile (· != '=')), argument.dropWhile (· != '=') with
  | some flag, _ :: value => if flag.value?.isSome then some (flag, String.ofList value) else none
  | _, _ => none

/-- The form of an argument that names no flag in full. -/
def Form.ofOther (argument : List Char) : Form :=
  match argument with
  | '-' :: '-' :: _ =>
    match longValue? argument with
    | some (flag, value) => .valued flag value
    | none => .unknownFlag
  | '-' :: c :: next :: others =>
    match Flag.named? ['-', c] with
    | some flag =>
      if flag.value?.isSome then .valued flag (String.ofList (next :: others))
      else .shared flag (next :: others)
    | none => .unknownFlag
  | '-' :: _ :: _ => .unknownFlag
  | _ => .operand

def Form.ofArgument (argument : List Char) : Form :=
  if argument = ['-', '-'] then .separator
  else
    match Flag.named? argument with
    | some flag => .exact flag
    | none => .ofOther argument

/-- Space taken by arguments; it shrinks with every flag that is read. -/
def space : List (List Char) → Nat
  | [] => 0
  | argument :: arguments => argument.length + 1 + space arguments

theorem shared_shorter {argument others : List Char} {flag : Flag}
    (shared : Form.ofArgument argument = .shared flag others) : others.length + 1 < argument.length := by
  unfold Form.ofArgument Form.ofOther at shared
  repeat' split at shared
  all_goals simp_all

/-- Read arguments after those read already. -/
def read (reading : Reading) : List (List Char) → Request
  | [] => reading.finish
  | argument :: arguments =>
    match _form : Form.ofArgument argument with
    | .separator =>
      let rest := arguments.map String.ofList
      (reading.add (if reading.unknown.isEmpty then rest else "--" :: rest)).finish
    | .exact flag =>
      if flag.value?.isSome then
        match arguments with
        | [] => .failure (.missingValue flag)
        | value :: arguments =>
          read { reading with settings := reading.settings.apply (String.ofList value) flag.setting } arguments
      else if flag.setting = .version then .version
      else read { reading with settings := reading.settings.apply "" flag.setting } arguments
    | .valued flag value =>
      read { reading with settings := reading.settings.apply value flag.setting } arguments
    | .shared flag others =>
      if flag.setting = .version then .version
      else read { reading with settings := reading.settings.apply "" flag.setting }
        (('-' :: others) :: arguments)
    | .unknownFlag => read (reading.addUnknown (String.ofList argument)) arguments
    | .operand => read (reading.add [String.ofList argument]) arguments
termination_by arguments => space arguments
decreasing_by
  · simp only [space]; omega
  · simp only [space]; omega
  · simp only [space]; omega
  · have shorter := shared_shorter ‹_›
    simp only [space, List.length_cons]
    omega
  · simp only [space]; omega
  · simp only [space]; omega

/-- What the arguments of the command ask for. -/
def Request.ofArguments (arguments : List String) : Request := read {} (arguments.map (·.toList))

end TapeScript.Command
