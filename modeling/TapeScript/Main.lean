import TapeScript.Command

/-! The command on the real disk and the real standard streams. -/
namespace TapeScript.Command.Shell

/-- What a path leads to on disk. -/
def entryAt? (path : String) : IO (Option Entry) := do
  try
    let _ ← IO.FS.Handle.mk (path ++ "/.") .read
    return some .directory
  catch _ =>
    try
      let bytes ← IO.FS.readBinFile path
      return some (.file (Text.ofUtf8 bytes.toList))
    catch _ => return none

/-- The paths on the way to a path, itself included. -/
def stations (path : String) : List String :=
  let names := path.splitOn "/"
  (List.range names.length).map fun index => "/".intercalate (names.take (index + 1))

/-- Take in what is on disk along a path. -/
def observe (files : FileSystem) (path : String) : IO FileSystem :=
  (stations path).foldlM (fun files path => do
    match files.locate path, ← entryAt? path with
    | .ok location, some entry => return files.insert location entry
    | _, _ => return files) files

/-- The part of the disk that a command looks at. -/
def snapshot (settings : Settings) (operands : List String) : IO FileSystem := do
  let sources ← operands.foldlM observe {}
  let folder ← observe sources settings.folder
  operands.foldlM (fun files path => observe files (settings.scriptPath path)) folder

/-- Put on disk what a command has made. -/
def store (path : String) : Entry → IO Unit
  | .directory => IO.FS.createDir path
  | .file content => IO.FS.writeFile path content

partial def readAll (input : IO.FS.Stream) (taken : List UInt8) : IO (List UInt8) := do
  let bytes ← input.read 4096
  if bytes.isEmpty then return taken else readAll input (taken ++ bytes.toList)

/-- Pass on what a console has taken in since the last time. -/
def drain (console : Console) : IO Console := do
  let output ← IO.getStdout
  for chunk in console.chunks do
    output.write ⟨chunk.toArray⟩
  output.flush
  for line in console.errors do
    IO.eprintln line
  return { console with chunks := #[], errors := #[] }

/-- How many steps a program takes between two looks at its console. -/
def stride : Nat := 1000000

partial def drive (meaning : Meaning Console) (config : Config Console) : IO UInt32 := do
  match config.advance meaning stride with
  | .inl config =>
    let console ← drain config.state.host
    drive meaning { config with state := { config.state with host := console } }
  | .inr (.ended state) =>
    let _ ← drain state.host.flush
    return 0
  | .inr (.failed error state) =>
    let _ ← drain state.host
    IO.eprintln (errorLine error)
    return 1

def unknownStatement : Error := .usage (.stated "statements of users cannot be run here")

/-- An engine that turns down every script with a statement of a user in it. -/
def refusing {ρ : Type} : Engine ρ where
  execute _ := .failed unknownStatement
  isWhole _ := true
  runWhole? _ host := some (.failed unknownStatement (.start none host))

/-- Run a program that a command has compiled. Its input is taken in first. -/
def runProgram (compilation : Compilation) : IO UInt32 := do
  if compilation.holdsStatements then
    IO.eprintln (errorLine unknownStatement)
    return 1
  let reads := compilation.tokens.any (·.kind == .input)
  let bytes ← if reads then readAll (← IO.getStdin) [] else pure []
  match compilation.start? (Console.ofStdin { bytes }) with
  | some config => drive (compilation.meaning refusing) config
  | none => return 1

/-- Enough steps for a validation that is worth waiting for. -/
def fuel : Nat := 1000000000000

/-- Carry out a command up to the run of a program, and take the time. -/
def prepare (settings : Settings) (operands : List String) (files : FileSystem) : IO (Option Progress) := do
  if settings.selfTest then
    let begun ← IO.monoMsNow
    match selfTest? refusing fuel settings with
    | none => return none
    | some test =>
      let ended ← IO.monoMsNow
      return some (reportTest settings (toString (ended - begun)) files test)
  else return prepare? refusing fuel settings operands "" files

def execute (settings : Settings) (operands : List String) : IO UInt32 := do
  let before ← snapshot settings operands
  match ← prepare settings operands before with
  | none => return 1
  | some progress =>
    IO.print (linesText progress.log)
    IO.eprint (linesText progress.errors)
    (progress.files.entriesSince before).forM fun entry => store entry.1 entry.2
    match progress.program? with
    | some compilation => runProgram compilation
    | none => return if progress.failed then 1 else 0

end TapeScript.Command.Shell

open TapeScript.Command in
def main (arguments : List String) : IO UInt32 := do
  match Request.ofArguments arguments with
  | .version =>
    IO.println versionText
    return 0
  | .help =>
    IO.print helpText
    return 0
  | .failure error =>
    IO.eprintln error.message
    return 1
  | .command settings operands => Shell.execute settings operands
