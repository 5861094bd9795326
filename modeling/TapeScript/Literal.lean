import TapeScript.Text.Utf8

/-! Input given with a program, read before anything else. -/
namespace TapeScript

inductive Literal where
  | text (content : String)
  | numbers (content : List Int)
  deriving DecidableEq, Repr

/-- Text as UTF-8; of a number, the low eight bits. -/
def Literal.bytes : Literal → List UInt8
  | text content => Text.utf8 content
  | numbers content => content.map UInt8.ofInt

/-- A piece of input as a program reads it: its bytes, then a zero. -/
def terminated (bytes : List UInt8) : List UInt8 := bytes ++ [0]

/-- What a program reads before it asks for a line. -/
def Literal.buffer : Option Literal → List UInt8
  | none => []
  | some literal => terminated literal.bytes

end TapeScript
