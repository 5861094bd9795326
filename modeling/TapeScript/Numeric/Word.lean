import TapeScript.Error

/-! Arithmetic on the low 32 bits of an integer. -/
namespace TapeScript.Numeric

def lowZeros : Nat → Int → Nat
  | 0, _ => 0
  | bits + 1, n => if n % 2 = 0 then lowZeros bits (n / 2) + 1 else 0

/-- How many of the low 32 bits are zero before the first that is set. -/
def lowZeroCount (n : Int) : Nat := lowZeros 32 n

/-- One Newton step towards the inverse of `m`; it doubles the number of correct low bits. -/
def inverseStep (m inverse : Int32) : Int32 := inverse * (2 - m * inverse)

/-- Inverse modulo 2^32 of an odd number. The number itself is right in its three lowest bits,
so four steps reach all 32. -/
def oddInverse (m : Int) : Except Error Int32 :=
  let word := Int32.ofInt m
  if m % 2 = 1 then
    .ok (inverseStep word (inverseStep word (inverseStep word (inverseStep word word))))
  else .error .evenInverse

end TapeScript.Numeric
