import TapeScript.EndOfInput
import TapeScript.Tape

/-! Statements of the emitted program. It sees the tape as `d`, the pointer as `p`, the runtime as
`rt`, the input buffer and its cursor as `inp` and `ic`, a scratch byte `b`, the iteration count of
a reduced loop `n`, and the functions `readByte` and `done`. -/
namespace TapeScript.Script

/-- The cell at an offset. -/
def cellAt (offset : Int) : String :=
  if offset = 0 then "d[p]" else if 0 < offset then s!"d[p + {offset}]" else s!"d[p - {-offset}]"

/-- Change a place by a signed amount. -/
def increase (target : String) (delta : Int) : String :=
  if delta = 1 then target ++ "++;"
  else if delta = -1 then target ++ "--;"
  else if 0 < delta then s!"{target} += {delta};"
  else s!"{target} -= {-delta};"

def movePointer (shift : Int) : String := increase "p" shift

/-- The cell arrived at by a move, as one expression that also moves. -/
def cellAfterMove (shift : Int) : String :=
  if shift = 1 then "d[++p]"
  else if shift = -1 then "d[--p]"
  else if 0 < shift then s!"d[p += {shift}]"
  else s!"d[p -= {-shift}]"

def input : EndOfInput → String
  | .halt => "if ((b = readByte()) < 0) return done(); d[p] = b;"
  | .zero => "b = readByte(); d[p] = b < 0 ? 0 : b;"
  | .unchanged => "if ((b = readByte()) >= 0) d[p] = b;"

def loopOpen : String := "while (d[p]) \x7b"
def loopClose : String := "\x7d"
def scanRight : String := "while (d[p]) p++;"
def scanLeft : String := "while (d[p]) p--;"
def output : String := "rt.write(d[p]);"

/-- Show the cells around the pointer, if the runtime can. -/
def dump : String :=
  s!"if (rt.debug) rt.debug(Array.from(d.subarray(p - 8, p + 8)), p - {Tape.start});"

/-- Change a cell by a multiple of the origin. -/
def scaledAdd (target : String) (factor : Int) : String :=
  let sign := if factor < 0 then "-=" else "+="
  let product := if factor.natAbs = 1 then "d[p]" else s!"d[p] * {factor.natAbs}"
  s!"{target} {sign} {product};"

/-- Change a cell by a multiple of the iteration count. -/
def countedAdd (target : String) (factor : Int) : String :=
  if factor = 1 then s!"{target} += n;"
  else if factor = -1 then s!"{target} -= n;"
  else s!"{target} += Math.imul(n, {factor});"

end TapeScript.Script
