import TapeScript.Proofs.Numeric.Inverse

/-! The iteration count of a reduced loop is the least number of iterations after which its origin is
zero, for every divisor of less than 32 bits. -/
namespace TapeScript

namespace CountFormula

open Numeric

theorem mask_and (shift n : Nat) : n &&& mask shift = n % twoTo (32 - shift) := by
  rw [twoTo_eq, mask, Nat.one_shiftLeft]
  exact Nat.and_two_pow_sub_one_eq_mod n _

private theorem shift_value {shift : Nat} (small : shift < 32) (origin : UInt32) :
    (origin >>> UInt32.ofNat shift).toNat = origin.toNat / twoTo shift := by
  have same : (UInt32.ofNat shift).toNat = shift := UInt32.toNat_ofNat_of_lt' (Nat.lt_trans small (by decide))
  rw [UInt32.toNat_shiftRight, same, Nat.mod_eq_of_lt small, Nat.shiftRight_eq_div_pow, twoTo_eq]
  rfl

theorem quotient_eq {divisor odd : Int} {shift : Nat} (parts : divisor = twoTo shift * odd) :
    divisor >>> shift = odd := by
  have positive : (twoTo shift : Int) ≠ 0 := Int.ofNat_ne_zero.mpr (Nat.ne_of_gt (twoTo_pos shift))
  rw [Int.shiftRight_eq_div_pow, parts]
  rw [twoTo_eq] at positive ⊢
  exact Int.mul_ediv_cancel_left _ positive

/-- The three forms are one computation. -/
theorem ofDivisor_value {divisor : Int} (nonzero : divisor ≠ 0) (bound : divisor.natAbs < UInt32.size) :
    ∃ shift < 32, ∃ odd : Int, ∃ formula, ∃ inverse : Int32, divisor = twoTo shift * odd ∧ odd % 2 = 1 ∧
      ofDivisor divisor = .ok formula ∧ Int32.ofInt odd * inverse = 1 ∧
      ∀ origin, (formula.value origin).toNat =
        origin.toUInt32.toNat / twoTo shift * inverse.toUInt32.toNat % twoTo (32 - shift) := by
  obtain ⟨small, odd, parts, isOdd⟩ := lowZeroCount_spec nonzero bound
  obtain ⟨inverse, inverted, product⟩ := oddInverse_ok isOdd
  have formula : ofDivisor divisor = .ok (if lowZeroCount divisor = 0 then .product inverse
      else if inverse = 1 then .quotient (lowZeroCount divisor)
      else .quotientProduct (lowZeroCount divisor) inverse) := by
    simp only [ofDivisor, quotient_eq parts, inverted, bind, Except.bind]
  refine ⟨_, small, odd, _, inverse, parts, isOdd, formula, product, fun origin => ?_⟩
  generalize lowZeroCount divisor = shift at small
  have split := twoTo_split (Nat.le_of_lt small)
  by_cases whole : shift = 0
  · subst whole
    rw [if_pos rfl, value, UInt32.toNat_mul, show twoTo 0 = 1 from rfl, Nat.div_one]
    rfl
  · by_cases plain : inverse = 1
    · have room : origin.toUInt32.toNat / twoTo shift < twoTo (32 - shift) := by
        apply Nat.div_lt_of_lt_mul
        rw [← split]
        exact origin.toUInt32.toNat_lt
      rw [if_neg whole, if_pos plain, value, shift_value small, plain]
      show _ = _ * 1 % _
      rw [Nat.mul_one, Nat.mod_eq_of_lt room]
    · have divides : twoTo (32 - shift) ∣ UInt32.size := ⟨twoTo shift, by rw [split, Nat.mul_comm]⟩
      have fits : mask shift < UInt32.size := by
        have smaller := Nat.le_of_dvd (by decide) divides
        exact Nat.lt_of_lt_of_le (Nat.sub_lt (twoTo_pos _) (by decide)) smaller
      rw [if_neg whole, if_neg plain, value, UInt32.toNat_and, UInt32.toNat_mul, shift_value small,
        UInt32.toNat_ofNat_of_lt' fits, mask_and]
      exact Nat.mod_mod_of_dvd _ divides

private theorem size_split {shift : Nat} (small : shift < 32) :
    (UInt32.size : Int) = twoTo shift * twoTo (32 - shift) := by
  rw [← Int.natCast_mul]
  exact congrArg _ (twoTo_split (Nat.le_of_lt small))

/-- An inverse of 32 bits is one of fewer bits. -/
private theorem inverse_residue {odd : Int} {inverse : Int32} {shift : Nat} (small : shift < 32)
    (product : Int32.ofInt odd * inverse = 1) :
    ∃ rest, odd * inverse.toUInt32.toNat = 1 + twoTo (32 - shift) * rest := by
  have same : Int32.ofInt inverse.toUInt32.toNat = inverse := (toInt32_eq inverse.toUInt32).symm
  have one : Int32.ofInt (odd * inverse.toUInt32.toNat) = Int32.ofInt 1 := by
    rw [Int32.ofInt_mul, same, product]
    rfl
  rw [ofInt_eq_iff] at one
  have unit : (1 : Int) % UInt32.size = 1 := rfl
  have parts := Int.emod_add_mul_ediv (odd * inverse.toUInt32.toNat) UInt32.size
  refine ⟨twoTo shift * (odd * inverse.toUInt32.toNat / UInt32.size), ?_⟩
  rw [← Int.mul_assoc, Int.mul_comm (twoTo (32 - shift) : Int), ← size_split small, ← unit, ← one]
  exact parts.symm

/-- The power of two in the divisor comes out of the congruence. -/
private theorem ofInt_scaled_iff {shift : Nat} (small : shift < 32) (odd times : Int) (origin : Int32) :
    Int32.ofInt (times * (twoTo shift * odd)) = origin ↔
      twoTo shift * (times * odd % twoTo (32 - shift)) = (origin.toUInt32.toNat : Int) := by
  have positive : (0 : Int) < twoTo shift := Int.ofNat_lt.mpr (twoTo_pos shift)
  rw [← Int.mul_emod_mul_of_pos _ _ positive, ← size_split small, Int.mul_left_comm, ← toNat_ofInt]
  constructor
  · rintro rfl
    rfl
  · intro same
    exact eq_of_toNat (Int.ofNat_inj.mp same)

/-- The count is one of the numbers of iterations that take the origin to zero, and all others differ from
it by a multiple of its bound. There are none unless the power of two in the divisor divides the origin. -/
theorem solves_iff {divisor : Int} (nonzero : divisor ≠ 0) (bound : divisor.natAbs < UInt32.size) :
    ∃ shift < 32, ∃ formula, LargestPower shift divisor ∧ ofDivisor divisor = .ok formula ∧ ∀ origin : Int32,
      (formula.value origin).toNat < twoTo (32 - shift) ∧
      ∀ times : Int, Int32.ofInt (times * divisor) = origin ↔
        (twoTo shift : Int) ∣ origin.toInt ∧ times % twoTo (32 - shift) = (formula.value origin).toNat := by
  obtain ⟨shift, small, odd, formula, inverse, rfl, isOdd, computed, product, value⟩ := ofDivisor_value nonzero bound
  refine ⟨shift, small, formula, largestPower_of_odd rfl isOdd, computed, fun origin => ?_⟩
  have positive : (0 : Int) < twoTo shift := Int.ofNat_lt.mpr (twoTo_pos shift)
  obtain ⟨rest, inverted⟩ := inverse_residue small product
  refine ⟨by rw [value]; exact Nat.mod_lt _ (twoTo_pos _), fun times => ?_⟩
  have word : (origin.toUInt32.toNat : Int) = origin.toInt % UInt32.size := by
    rw [← toNat_ofInt, Int32.ofInt_toInt]
  have quotient : (origin.toUInt32.toNat / twoTo shift : Int) % twoTo (32 - shift) =
      origin.toUInt32.toNat / twoTo shift := by
    apply Int.emod_eq_of_lt
    · exact Int.ediv_nonneg (Int.natCast_nonneg _) (Int.natCast_nonneg _)
    · apply Int.ediv_lt_of_lt_mul positive
      rw [Int.mul_comm, ← size_split small]
      exact Int.ofNat_lt.mpr origin.toUInt32.toNat_lt
  rw [value, ← dvd_emod_size (Nat.le_of_lt small), ← word, Int.natCast_emod, Int.natCast_mul, Int.natCast_ediv,
    ← mul_emod_iff inverted quotient, ofInt_scaled_iff small]
  constructor
  · intro same
    rw [← same]
    exact ⟨Int.dvd_mul_right _ _, (Int.mul_ediv_cancel_left _ (Int.ne_of_gt positive)).symm⟩
  · rintro ⟨divides, same⟩
    rw [same]
    exact Int.mul_ediv_cancel' divides

end CountFormula

/-- A loop that is not entered has no iterations, whatever its divisor. -/
theorem iterations_zero (divisor : Int) : iterations divisor 0 = 0 := by
  rw [iterations]
  cases CountFormula.ofDivisor divisor with
  | error error => rfl
  | ok formula =>
    have zero : (0 : Int32).toUInt32 = 0 := rfl
    cases formula <;> simp [CountFormula.value, zero]

/-- Some number of iterations takes the origin to zero just if the power of two in the divisor divides it. -/
theorem reaches_iff {divisor : Int} (nonzero : divisor ≠ 0) (bound : divisor.natAbs < UInt32.size) (origin : Int32) :
    (∃ count : Nat, Int32.ofInt (count * divisor) = origin) ↔
      ∃ shift, Numeric.LargestPower shift divisor ∧ (Numeric.twoTo shift : Int) ∣ origin.toInt := by
  obtain ⟨shift, _, formula, power, _, spec⟩ := CountFormula.solves_iff nonzero bound
  obtain ⟨below, solves⟩ := spec origin
  constructor
  · rintro ⟨count, reaches⟩
    exact ⟨shift, power, ((solves count).mp reaches).1⟩
  · rintro ⟨other, powerOther, divides⟩
    obtain rfl := power.unique powerOther
    exact ⟨_, (solves _).mpr ⟨divides, Int.emod_eq_of_lt (Int.natCast_nonneg _) (Int.ofNat_lt.mpr below)⟩⟩

/-- The count is that of the first iteration after which the origin is zero. -/
theorem iterations_eq {divisor : Int} {origin : Int32} {count : Nat} (nonzero : divisor ≠ 0)
    (bound : divisor.natAbs < UInt32.size) (reaches : Int32.ofInt (count * divisor) = origin)
    (least : ∀ fewer < count, Int32.ofInt (fewer * divisor) ≠ origin) :
    (iterations divisor origin).toNat = count := by
  obtain ⟨shift, _, formula, _, computed, spec⟩ := CountFormula.solves_iff nonzero bound
  obtain ⟨below, solves⟩ := spec origin
  obtain ⟨divides, same⟩ := (solves count).mp reaches
  have itself : Int32.ofInt ((formula.value origin).toNat * divisor) = origin :=
    (solves _).mpr ⟨divides, Int.emod_eq_of_lt (Int.natCast_nonneg _) (Int.ofNat_lt.mpr below)⟩
  have early : (formula.value origin).toNat ≤ count := by
    rw [← Int.ofNat_inj.mp ((Int.natCast_emod _ _).trans same)]
    exact Nat.mod_le _ _
  rw [iterations, computed]
  exact Nat.le_antisymm early (Nat.le_of_not_lt fun fewer => least _ fewer itself)

end TapeScript
