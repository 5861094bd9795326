import TapeScript.Host

/-! Surroundings made up in advance: lines to read, and a record of what was put out. -/
namespace TapeScript

/-- The cells a program showed, and its pointer relative to its start. -/
structure Dump where
  cells : List Int32
  position : Int
  deriving DecidableEq, Repr

structure Collector where
  lines : List String := []
  output : Array UInt8 := #[]
  dumps : Array Dump := #[]

namespace Collector

def ofLines (lines : List String) : Collector := { lines }

def write (value : Int) : Collector → Collector
  | ⟨lines, output, dumps⟩ => ⟨lines, output.push (UInt8.ofInt value), dumps⟩

def readLine : Collector → Option String × Collector
  | ⟨[], output, dumps⟩ => (none, ⟨[], output, dumps⟩)
  | ⟨line :: lines, output, dumps⟩ => (some line, ⟨lines, output, dumps⟩)

def debug (cells : List Int32) (position : Int) : Collector → Collector
  | ⟨lines, output, dumps⟩ => ⟨lines, output, dumps.push { cells, position }⟩

/-- The bytes put out so far. -/
def bytes (collector : Collector) : List UInt8 := collector.output.toList

end Collector

instance : Host Collector where
  write := Collector.write
  readLine host :=
    match host.readLine with
    | (line?, host) => (.ok line?, host)
  debug := Collector.debug

end TapeScript
