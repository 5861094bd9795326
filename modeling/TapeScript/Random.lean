import TapeScript.Error
import TapeScript.Numeric.Double

/-! A small generator of random numbers and random programs. -/
namespace TapeScript

/-- State of the generator; zero is the one state it never leaves. -/
structure Generator where
  state : UInt32
  deriving DecidableEq, Repr

abbrev Random := StateM Generator

namespace Generator

/-- A generator for a seed. The product is rounded to a double before it is cut to 32 bits. -/
def ofSeed (seed : Int) : Generator :=
  ⟨UInt32.ofInt (Numeric.nearest (seed * 0x1000193))⟩

/-- The state after the given one. -/
def scramble (x : UInt32) : UInt32 :=
  let x := x ^^^ (x <<< 13)
  let x := x ^^^ (x >>> 17)
  x ^^^ (x <<< 5)

/-- The next number, which is also the next state. -/
def next (generator : Generator) : UInt32 × Generator :=
  let state := scramble generator.state
  (state, ⟨state⟩)

end Generator

namespace Random

def word : Random UInt32 := fun generator => generator.next

/-- A number from an interval, its ends included, in double precision; none if the interval comes
out empty. -/
def inclusive? (low high : Int) : Random (Option Int) := do
  let drawn ← word
  let span := Numeric.nearest (Numeric.nearest (high - low) + 1)
  if span = 0 then return none
  return some (Numeric.nearest (low + (drawn.toNat : Int).tmod span))

/-- A number from one to another. -/
def between (low high : Nat) : Random Nat := do
  let drawn ← word
  return low + drawn.toNat % (high - low + 1)

/-- The position of an item to pick out of so many. -/
def position (count : Nat) : Random Nat := do
  let drawn ← word
  return drawn.toNat % count

/-- One of some texts. -/
def choice (first : String) (others : List String) : Random String := do
  let index ← position (others.length + 1)
  return (first :: others)[index]?.getD first

/-- An item of a list. -/
def pick? {α : Type} (items : List α) (generator : Generator) : Except Error α × Generator :=
  let (index, after) := position items.length generator
  match items[index]? with
  | some item => (.ok item, after)
  | none => (.error .emptyPick, generator)

/-- Texts drawn one after the other, joined. -/
def repeated : Nat → Random String → Random String
  | 0, _ => return ""
  | count + 1, draw => do
    let first ← draw
    let rest ← repeated count draw
    return first ++ rest

/-- A character, so many times. -/
def copies (c : Char) (count : Nat) : String := String.ofList (List.replicate count c)

/-- Instructions without a loop of their own, of the kind the number says. -/
def flatPiece : Nat → Random String
  | 0 | 1 => return copies '+' (← between 1 12)
  | 2 => return copies '-' (← between 1 4)
  | 3 => return copies '>' (← between 1 3)
  | 4 => return copies '<' (← between 1 3)
  | 5 => choice "." [".", ",", "[-]", "[>]", "[<]"]
  | _ => choice "+-" ["-+", "><", "<>"]

/-- A loop around a drawn body, most often one that counts down the cell it starts at. -/
def loopPiece (body : Random String) : Random String := do
  let distance ← between 1 3
  let body ← body
  let away := copies '>' distance ++ body ++ copies '<' distance
  choice ("[-" ++ away ++ "]") ["[" ++ away ++ "-]", "[" ++ body ++ "]", "[--" ++ away ++ "]"]

/-- A few pieces in a row, with loops nested no deeper than the given depth. -/
def block : Nat → Random String
  | 0 => do
    let count ← between 1 6
    repeated count (do flatPiece (← between 0 6))
  | depth + 1 => do
    let count ← between 1 6
    repeated count (do
      let kind ← between 0 9
      if kind ≤ 6 then flatPiece kind else loopPiece (block depth))

/-- How deep the loops of a random program nest, besides those that are single instructions. -/
def maxDepth : Nat := 3

/-- A character of random input. -/
def inputPiece : Random String := do
  return String.singleton (Char.ofNat (← between 1 20))

end Random

/-- A program of random instructions with its literal input. It may well not end. -/
structure RandomProgram where
  source : String
  input : String
  deriving DecidableEq, Repr

def Random.program : Random RandomProgram := do
  let blocks ← between 1 5
  let source ← repeated blocks (block maxDepth)
  let length ← between 0 4
  let input ← repeated length inputPiece
  return { source, input }

end TapeScript
