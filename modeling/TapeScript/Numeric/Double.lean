/-! Integers held as double-precision numbers: 53 significant bits. -/
namespace TapeScript.Numeric

/-- The magnitude rounded to 53 significant bits, a half going to the even neighbour. -/
def nearestNat (n : Nat) : Nat :=
  let excess := n.log2 + 1 - 53
  let unit := 1 <<< excess
  let quotient := n / unit
  let twice := 2 * (n % unit)
  let up := unit < twice ∨ (twice = unit ∧ excess ≠ 0 ∧ quotient % 2 = 1)
  if up then (quotient + 1) * unit else quotient * unit

/-- The double nearest to an integer. -/
def nearest : Int → Int
  | .ofNat n => nearestNat n
  | .negSucc n => -nearestNat (n + 1)

end TapeScript.Numeric
