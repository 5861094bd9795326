import TapeScript.Host
import TapeScript.Text.Utf8

/-! The standard streams as surroundings of a program. Output is collected and written in chunks;
input is read byte by byte, and a read may fail. -/
namespace TapeScript

/-- Standard input: what is left of it, how many reads were made, and for each read to come whether it fails and
how; reads beyond the list succeed. -/
structure Stdin where
  bytes : List UInt8
  faults : List (Option String) := []
  reads : Nat := 0
  deriving DecidableEq, Repr

namespace Stdin

/-- The fault of a read that may be tried again at once. -/
def transient : String := "EAGAIN"

/-- The fault by which some systems report the end of input. -/
def endFault : String := "EOF"

/-- Try a read until it does not fail for a moment only: the fault that stands, if any, and the
reads made. -/
def retry : List (Option String) → Option String × List (Option String) × Nat
  | [] => (none, [], 1)
  | some code :: faults =>
    if code = transient then
      match retry faults with
      | (fault?, faults, reads) => (fault?, faults, reads + 1)
    else (some code, faults, 1)
  | none :: faults => (none, faults, 1)

/-- The line at the end of input; none if there is nothing left for one. -/
def lastLine (line : List UInt8) : Option (List UInt8) := if line.isEmpty then none else some line.reverse

/-- What a read makes of a line when it fails for good. -/
def interrupted (line : List UInt8) (code : String) : Except Error (Option (List UInt8)) :=
  if code = endFault then .ok (lastLine line) else .error (.readFault code)

/-- Read the rest of a line whose bytes so far are given last first. The line ends before a line
break, which is read too, or at the end of input. -/
def lineAfter (line : List UInt8) (faults : List (Option String)) (reads : Nat) :
    List UInt8 → Except Error (Option (List UInt8)) × Stdin
  | [] =>
    match retry faults with
    | (some code, faults, tried) => (interrupted line code, { bytes := [], faults, reads := reads + tried })
    | (none, faults, tried) => (.ok (lastLine line), { bytes := [], faults, reads := reads + tried })
  | byte :: bytes =>
    match retry faults with
    | (some code, faults, tried) =>
      (interrupted line code, { bytes := byte :: bytes, faults, reads := reads + tried })
    | (none, faults, tried) =>
      if byte = 10 then (.ok (some line.reverse), { bytes, faults, reads := reads + tried })
      else lineAfter (byte :: line) faults (reads + tried) bytes

/-- Read a line. -/
def line (stdin : Stdin) : Except Error (Option (List UInt8)) × Stdin :=
  lineAfter [] stdin.faults stdin.reads stdin.bytes

end Stdin

/-- Output stays in the buffer until it is written as a chunk. -/
structure Console where
  stdin : Stdin
  buffer : Array UInt8 := #[]
  chunks : Array (List UInt8) := #[]
  errors : Array String := #[]

namespace Console

/-- How many bytes the buffer is emptied at. -/
def bufferLimit : Nat := 4096

def ofStdin (stdin : Stdin) : Console := { stdin }

/-- Write what the buffer holds. -/
def flush : Console → Console
  | ⟨stdin, buffer, chunks, errors⟩ =>
    if buffer.isEmpty then ⟨stdin, buffer, chunks, errors⟩
    else ⟨stdin, #[], chunks.push buffer.toList, errors⟩

def write (value : Int) : Console → Console
  | ⟨stdin, buffer, chunks, errors⟩ =>
    let buffer := buffer.push (UInt8.ofInt value)
    if bufferLimit ≤ buffer.size then flush ⟨stdin, buffer, chunks, errors⟩
    else ⟨stdin, buffer, chunks, errors⟩

/-- Read a line, after all output before it was written. If a read fails, the bytes of the line so
far are lost. -/
def readLine (console : Console) : Except Error (Option String) × Console :=
  match console.flush with
  | ⟨stdin, buffer, chunks, errors⟩ =>
    match stdin.line with
    | (result, stdin) => (result.map (·.map Text.ofUtf8), ⟨stdin, buffer, chunks, errors⟩)

/-- Show cells on the error stream, after all output before them was written. -/
def debug (cells : List Int32) (position : Int) (console : Console) : Console :=
  match console.flush with
  | ⟨stdin, buffer, chunks, errors⟩ =>
    let shown := " ".intercalate (cells.map toString)
    ⟨stdin, buffer, chunks, errors.push s!"@{position}: {shown}"⟩

/-- The bytes written. -/
def written (console : Console) : List UInt8 := console.chunks.toList.flatten

end Console

instance : Host Console where
  write := Console.write
  readLine := Console.readLine
  debug := Console.debug

end TapeScript
