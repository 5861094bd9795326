import TapeScript.Tape

/-! A short account of a tape. Positions are relative to where the pointer started. -/
namespace TapeScript

/-- The cells of a window, and the sum of all cells, wrapped like a cell. -/
structure Tape.Report where
  cells : List Int32
  nonzero : Nat
  sum : Int32
  first? : Option Int
  last? : Option Int
  deriving Repr

namespace Tape

/-- A position brought into the tape, its end included. -/
private def clip (tape : Tape) (position : Int) : Nat := min position.toNat tape.size

/-- The cells of a window, as far as it lies on the tape. -/
def window (tape : Tape) (first last : Int) : List Int32 :=
  let origin : Int := Tape.start
  (tape.cells.extract (tape.clip (origin + first)) (tape.clip (origin + last))).toList

/-- Position in the array of the non-zero cell nearest to the end. -/
private def lastSet? (cells : Array Int32) : Nat → Option Nat
  | 0 => none
  | count + 1 => if cells[count]?.getD 0 != 0 then some count else lastSet? cells count

def report (tape : Tape) (first last : Int) : Report :=
  let relative (index : Nat) : Int := index - Tape.start
  { cells := tape.window first last
    nonzero := tape.cells.countP (· != 0)
    sum := tape.cells.foldl (· + ·) 0
    first? := (tape.cells.findIdx? (· != 0)).map relative
    last? := (lastSet? tape.cells tape.size).map relative }

end Tape
end TapeScript
