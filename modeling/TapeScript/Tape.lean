/-! The tape: 32-bit cells that wrap around. A position outside reads as nothing and takes no
writes, so a pointer may leave the tape and come back. -/
namespace TapeScript

structure Tape where
  cells : Array Int32
  deriving Repr

namespace Tape

/-- How many cells a program has. -/
def fullSize : Nat := 0x20000

/-- Where its pointer starts. -/
def start : Nat := fullSize / 2

/-- The tape a program starts on. -/
def blank : Tape := ⟨Array.replicate fullSize 0⟩

def size (tape : Tape) : Nat := tape.cells.size

def read? (tape : Tape) : Int → Option Int32
  | .ofNat index => tape.cells[index]?
  | .negSucc _ => none

/-- The cell at a position, or zero outside. -/
def read (tape : Tape) (position : Int) : Int32 := (tape.read? position).getD 0

/-- Whether loops go on at a position: a cell is there and it is not zero. -/
def isSet (tape : Tape) (position : Int) : Bool := tape.read position != 0

def write (tape : Tape) (position : Int) (value : Int32) : Tape :=
  match position with
  | .ofNat index => ⟨tape.cells.setIfInBounds index value⟩
  | .negSucc _ => tape

/-- Change the cell at a position, if there is one. -/
def modify (tape : Tape) (position : Int) (change : Int32 → Int32) : Tape :=
  match position with
  | .ofNat index => ⟨tape.cells.modify index change⟩
  | .negSucc _ => tape

/-- Add to the cell at a position, if there is one. -/
def add (tape : Tape) (position : Int) (delta : Int32) : Tape := tape.modify position (· + delta)

/-- Step while cells are set, at most so many times. -/
def seek (tape : Tape) (step : Int) : Nat → Int → Int
  | 0, position => position
  | limit + 1, position =>
    if tape.isSet position then seek tape step limit (position + step) else position

/-- The first position to the right that is not set. A walk over the whole tape is long enough. -/
def seekRight (tape : Tape) (position : Int) : Int := tape.seek 1 tape.size position

def seekLeft (tape : Tape) (position : Int) : Int := tape.seek (-1) tape.size position

/-- A bound of a slice: negative ones count from the end, and both ends of the tape hold. -/
def sliceBound (tape : Tape) (bound : Int) : Nat :=
  if bound < 0 then (tape.size + bound).toNat else min bound.toNat tape.size

/-- The cells from one bound up to another. -/
def slice (tape : Tape) (first last : Int) : List Int32 :=
  (tape.cells.extract (tape.sliceBound first) (tape.sliceBound last)).toList

end Tape
end TapeScript
