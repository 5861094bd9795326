import TapeScript.Numeric.Word

/-! The number of iterations of a reduced loop.

Cells wrap at 32 bits, so a loop whose origin drops by `divisor` per iteration ends after the least
`n` with `n * divisor` equal to the origin modulo 2^32. With `divisor = 2^k * m` and `m` odd, that
is the origin divided by 2^k times the inverse of `m`, modulo 2^(32 - k). An origin that is no
multiple of 2^k never gets to zero. -/
namespace TapeScript

/-- How to compute the count from the origin. The emitted expression and its value are two readings
of the same formula. -/
inductive CountFormula where
  | product (inverse : Int32)
  | quotient (shift : Nat)
  | quotientProduct (shift : Nat) (inverse : Int32)
  deriving DecidableEq, Repr

namespace CountFormula

def ofDivisor (divisor : Int) : Except Error CountFormula := do
  let shift := Numeric.lowZeroCount divisor
  let inverse ← Numeric.oddInverse (divisor >>> shift)
  .ok (if shift = 0 then product inverse
    else if inverse = 1 then quotient shift
    else quotientProduct shift inverse)

private def hexadecimal (n : Nat) : String := String.ofList (Nat.toDigits 16 n)

/-- The largest number of the bits that a shift leaves. -/
def mask (shift : Nat) : Nat := (1 <<< (32 - shift)) - 1

/-- The expression in the emitted program. -/
def text : CountFormula → String
  | product inverse => s!"Math.imul(d[p], {inverse}) >>> 0"
  | quotient shift => s!"d[p] >>> {shift}"
  | quotientProduct shift inverse =>
    s!"Math.imul(d[p] >>> {shift}, {inverse}) & 0x{hexadecimal (mask shift)}"

/-- The value of the expression at an origin. -/
def value (origin : Int32) : CountFormula → UInt32
  | product inverse => origin.toUInt32 * inverse.toUInt32
  | quotient shift => origin.toUInt32 >>> UInt32.ofNat shift
  | quotientProduct shift inverse =>
    ((origin.toUInt32 >>> UInt32.ofNat shift) * inverse.toUInt32) &&& UInt32.ofNat (mask shift)

end CountFormula
end TapeScript
