import TapeScript.Machine.Perform

/-! Words of 32 bits as integers, and the powers of two that divide a number. -/
namespace TapeScript.Numeric

def twoTo (exponent : Nat) : Nat := 1 <<< exponent

theorem twoTo_eq (exponent : Nat) : twoTo exponent = Nat.pow 2 exponent := Nat.one_shiftLeft exponent

theorem twoTo_succ (exponent : Nat) : twoTo (exponent + 1) = twoTo exponent * 2 := by
  rw [twoTo_eq, twoTo_eq]
  rfl

theorem twoTo_add (first second : Nat) : twoTo (first + second) = twoTo first * twoTo second := by
  rw [twoTo_eq, twoTo_eq, twoTo_eq]
  exact Nat.pow_add 2 first second

theorem twoTo_pos (exponent : Nat) : 0 < twoTo exponent := by
  rw [twoTo_eq]
  exact Nat.two_pow_pos exponent

theorem twoTo_split {shift : Nat} (small : shift ≤ 32) : UInt32.size = twoTo shift * twoTo (32 - shift) := by
  rw [← twoTo_add, Nat.add_sub_cancel' small]
  rfl

theorem lowZeros_spec (bits : Nat) (n : Int) :
    ∃ odd, n = twoTo (lowZeros bits n) * odd ∧ (odd % 2 = 1 ∨ lowZeros bits n = bits) := by
  induction bits generalizing n with
  | zero => exact ⟨n, by simp [lowZeros, twoTo], .inr rfl⟩
  | succ bits ih =>
    rw [lowZeros]
    split
    · rename_i even
      obtain ⟨odd, half, found⟩ := ih (n / 2)
      refine ⟨odd, ?_, found.imp_right (congrArg (· + 1))⟩
      rw [twoTo_succ, Int.natCast_mul, Int.mul_assoc, Int.mul_left_comm, ← half]
      omega
    · exact ⟨n, by simp [twoTo], .inl (by omega)⟩

/-- A number of less than 32 bits is odd but for its low zeros. -/
theorem lowZeroCount_spec {n : Int} (nonzero : n ≠ 0) (bound : n.natAbs < UInt32.size) :
    lowZeroCount n < 32 ∧ ∃ odd, n = twoTo (lowZeroCount n) * odd ∧ odd % 2 = 1 := by
  obtain ⟨odd, parts, found⟩ := lowZeros_spec 32 n
  have least : lowZeros 32 n < 32 := by
    apply Nat.lt_of_not_le
    intro many
    obtain ⟨more, exact'⟩ := Nat.exists_eq_add_of_le many
    have word : (twoTo 32 : Int) = 4294967296 := rfl
    rw [exact', twoTo_add, Int.natCast_mul, Int.mul_assoc, word] at parts
    have bound : n.natAbs < 4294967296 := bound
    omega
  exact ⟨least, odd, parts, found.resolve_right (by omega)⟩

/-- The largest power of two that divides a number. -/
structure LargestPower (exponent : Nat) (n : Int) : Prop where
  divides : (twoTo exponent : Int) ∣ n
  largest : ∀ other, (twoTo other : Int) ∣ n → other ≤ exponent

theorem largestPower_of_odd {n odd : Int} {exponent : Nat} (parts : n = twoTo exponent * odd) (isOdd : odd % 2 = 1) :
    LargestPower exponent n where
  divides := ⟨odd, parts⟩
  largest other divides := by
    apply Nat.le_of_not_lt
    intro more
    obtain ⟨excess, rfl⟩ := Nat.exists_eq_add_of_lt more
    obtain ⟨quotient, same⟩ := divides
    have positive : (twoTo exponent : Int) ≠ 0 := Int.ofNat_ne_zero.mpr (Nat.ne_of_gt (twoTo_pos exponent))
    have even : odd = 2 * (twoTo excess * quotient) := by
      apply Int.eq_of_mul_eq_mul_left positive
      rw [← parts, same, twoTo_succ, twoTo_add]
      push_cast
      grind
    omega

theorem LargestPower.unique {exponent other : Nat} {n : Int} (first : LargestPower exponent n)
    (second : LargestPower other n) : exponent = other :=
  Nat.le_antisymm (second.largest _ first.divides) (first.largest _ second.divides)

private theorem mul_emod_congr {modulus first second : Int} (factor : Int) (same : first % modulus = second % modulus) :
    first * factor % modulus = second * factor % modulus := by
  rw [Int.mul_emod, same, ← Int.mul_emod]

/-- A factor with an inverse can be brought to the other side. -/
theorem mul_emod_iff {modulus factor inverse rest times quotient : Int}
    (inverted : factor * inverse = 1 + modulus * rest)
    (small : quotient % modulus = quotient) :
    times * factor % modulus = quotient ↔ times % modulus = quotient * inverse % modulus := by
  have cancel (n : Int) : n * (factor * inverse) % modulus = n % modulus := by
    rw [inverted, Int.mul_add, Int.mul_one, Int.mul_left_comm, Int.add_mul_emod_self_left]
  constructor
  · intro same
    rw [← cancel times, ← Int.mul_assoc]
    exact mul_emod_congr inverse (same.trans small.symm)
  · intro same
    rw [mul_emod_congr factor same, Int.mul_assoc, Int.mul_comm inverse, cancel, small]

/-- Whether a power of two divides a number shows in its low bits. -/
theorem dvd_emod_size {exponent : Nat} (small : exponent ≤ 32) (n : Int) :
    (twoTo exponent : Int) ∣ n % UInt32.size ↔ (twoTo exponent : Int) ∣ n := by
  have divides : (twoTo exponent : Int) ∣ (UInt32.size : Nat) := Int.ofNat_dvd.mpr ⟨_, twoTo_split small⟩
  rw [Int.dvd_iff_emod_eq_zero, Int.dvd_iff_emod_eq_zero, Int.emod_emod_of_dvd n divides]

theorem toNat_ofInt (n : Int) : ((Int32.ofInt n).toUInt32.toNat : Int) = n % UInt32.size := by
  have bits : (Int32.ofInt n).toUInt32.toNat = (n % UInt32.size).toNat := BitVec.toNat_ofInt n
  rw [bits]
  exact Int.toNat_of_nonneg (Int.emod_nonneg n (by decide))

theorem eq_of_toNat {first second : Int32} (same : first.toUInt32.toNat = second.toUInt32.toNat) :
    first = second := by
  rw [← Int32.toInt32_toUInt32 first, UInt32.toNat_inj.mp same, Int32.toInt32_toUInt32]

theorem ofInt_eq_iff (n m : Int) : Int32.ofInt n = Int32.ofInt m ↔ n % UInt32.size = m % UInt32.size := by
  constructor
  · intro same
    rw [← toNat_ofInt, same, toNat_ofInt]
  · intro same
    apply eq_of_toNat
    apply Int.ofNat_inj.mp
    rw [toNat_ofInt, toNat_ofInt, same]

theorem ofInt_eq_zero_iff (n : Int) : Int32.ofInt n = 0 ↔ (UInt32.size : Int) ∣ n := by
  have zero : (0 : Int32) = Int32.ofInt 0 := rfl
  rw [zero, ofInt_eq_iff, Int.zero_emod, Int.dvd_iff_emod_eq_zero]

theorem toInt32_eq (word : UInt32) : word.toInt32 = Int32.ofInt word.toNat := by
  apply eq_of_toNat
  apply Int.ofNat_inj.mp
  rw [toNat_ofInt, UInt32.toUInt32_toInt32]
  exact (Int.emod_eq_of_lt (Int.natCast_nonneg _) (Int.ofNat_lt.mpr word.toNat_lt)).symm

end TapeScript.Numeric
