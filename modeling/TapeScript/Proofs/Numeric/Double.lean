import TapeScript.Numeric.Double
import TapeScript.Proofs.Numeric.Word

/-! Integers that need no rounding: all of no more than 53 bits are doubles. -/
namespace TapeScript.Numeric

theorem nearestNat_eq {n : Nat} (small : n < twoTo 53) : nearestNat n = n := by
  have noExcess : n.log2 + 1 - 53 = 0 := by
    by_cases zero : n = 0
    · subst zero
      rfl
    · rw [twoTo_eq] at small
      have bits : n.log2 < 53 := (Nat.log2_lt zero).mpr small
      omega
  have unit : 1 <<< (0 : Nat) = 1 := rfl
  simp [nearestNat, noExcess, unit, Nat.mod_one]

theorem nearest_eq {n : Int} (small : n.natAbs < twoTo 53) : nearest n = n := by
  cases n with
  | ofNat n => exact congrArg Int.ofNat (nearestNat_eq small)
  | negSucc n =>
    have exactly : nearestNat (n + 1) = n + 1 := nearestNat_eq small
    rw [nearest, exactly]
    rfl

end TapeScript.Numeric
