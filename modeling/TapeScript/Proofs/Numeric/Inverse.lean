import TapeScript.Proofs.Numeric.Word

/-! Newton's method for the inverse of an odd number modulo 2^32. The number is its own inverse in the three
lowest bits, every step doubles the bits that are right, and four steps make all of them right. -/
namespace TapeScript.Numeric

variable {m : Int} {bits : Nat} {inverse : Int32}

/-- The product of two numbers is one in its lowest bits. -/
def InverseTo (bits : Nat) (m : Int) (inverse : Int32) : Prop := (twoTo bits : Int) ∣ m * inverse.toInt - 1

/-- What some Newton steps make of a number. -/
def approximation (m : Int) : Nat → Int32
  | 0 => Int32.ofInt m
  | steps + 1 => inverseStep (Int32.ofInt m) (approximation m steps)

theorem dvd_toInt_sub (n : Int) : (UInt32.size : Int) ∣ (Int32.ofInt n).toInt - n := by
  apply Int.dvd_of_emod_eq_zero
  apply Int.emod_eq_emod_iff_emod_sub_eq_zero.mp
  rw [← ofInt_eq_iff, Int32.ofInt_toInt]

theorem twoTo_dvd {least exponent : Nat} (le : least ≤ exponent) : (twoTo least : Int) ∣ twoTo exponent := by
  rw [← Nat.sub_add_cancel le, twoTo_add]
  exact Int.natCast_dvd_natCast.mpr (Nat.dvd_mul_left _ _)

theorem inverseStep_ofInt (m n : Int) :
    inverseStep (Int32.ofInt m) (Int32.ofInt n) = Int32.ofInt (n * (2 - m * n)) := by
  rw [inverseStep, Int32.ofInt_mul, Int32.ofInt_sub, Int32.ofInt_mul]
  rfl

/-- The numbers before the step are right up to a multiple of a power of two, the ones after it up to its square,
and what is lost to the word size is a multiple of 2^32. -/
theorem InverseTo.step (right : InverseTo bits m inverse) :
    InverseTo (min 32 (2 * bits)) m (inverseStep (Int32.ofInt m) inverse) := by
  generalize number : inverse.toInt = n at right
  have next : inverseStep (Int32.ofInt m) inverse = Int32.ofInt (n * (2 - m * n)) := by
    rw [← inverseStep_ofInt, ← number, Int32.ofInt_toInt]
  rw [InverseTo, number] at right
  have squared : (twoTo (min 32 (2 * bits)) : Int) ∣ (m * n - 1) * (m * n - 1) := by
    refine Int.dvd_trans (twoTo_dvd (Nat.min_le_right _ _)) ?_
    rw [Nat.two_mul, twoTo_add, Int.natCast_mul]
    exact Int.mul_dvd_mul right right
  have wrapped : (twoTo (min 32 (2 * bits)) : Int) ∣ m * ((Int32.ofInt (n * (2 - m * n))).toInt - n * (2 - m * n)) :=
    Int.dvd_mul_of_dvd_right (Int.dvd_trans (twoTo_dvd (Nat.min_le_left _ _)) (dvd_toInt_sub _))
  have parts : m * (Int32.ofInt (n * (2 - m * n))).toInt - 1 =
      m * ((Int32.ofInt (n * (2 - m * n))).toInt - n * (2 - m * n)) - (m * n - 1) * (m * n - 1) := by
    grind
  rw [InverseTo, next, parts]
  exact Int.dvd_sub wrapped squared

private theorem square_of_odd (odd : m % 2 = 1) : ∃ rest, m * m = 1 - 8 * rest := by
  obtain ⟨half, rfl⟩ : ∃ half, m = 2 * half + 1 := ⟨m / 2, by omega⟩
  by_cases even : half % 2 = 0
  · obtain ⟨quarter, rfl⟩ : ∃ quarter, half = 2 * quarter := ⟨half / 2, by omega⟩
    exact ⟨-(quarter * (2 * quarter + 1)), by grind⟩
  · obtain ⟨quarter, rfl⟩ : ∃ quarter, half = 2 * quarter + 1 := ⟨half / 2, by omega⟩
    exact ⟨-((2 * quarter + 1) * (quarter + 1)), by grind⟩

/-- An odd number is its own inverse modulo eight. -/
theorem inverseTo_start (odd : m % 2 = 1) : InverseTo 3 m (Int32.ofInt m) := by
  obtain ⟨rest, square⟩ := square_of_odd odd
  have wrapped : (twoTo 3 : Int) ∣ m * ((Int32.ofInt m).toInt - m) :=
    Int.dvd_mul_of_dvd_right (Int.dvd_trans (twoTo_dvd (by decide : 3 ≤ 32)) (dvd_toInt_sub m))
  have parts : m * (Int32.ofInt m).toInt - 1 = m * ((Int32.ofInt m).toInt - m) - 8 * rest := by grind
  rw [InverseTo, parts]
  exact Int.dvd_sub wrapped (Int.dvd_mul_right 8 rest)

/-- The bits that are right after some steps, up to the size of a word. -/
theorem inverseTo_approximation (odd : m % 2 = 1) (steps : Nat) :
    InverseTo (min 32 (3 * twoTo steps)) m (approximation m steps) := by
  induction steps with
  | zero => exact inverseTo_start odd
  | succ steps ih =>
    have next := ih.step
    have doubled : min 32 (2 * min 32 (3 * twoTo steps)) = min 32 (3 * twoTo (steps + 1)) := by
      rw [twoTo_succ]
      omega
    rwa [doubled] at next

theorem oddInverse_eq (odd : m % 2 = 1) : oddInverse m = .ok (approximation m 4) := by
  rw [oddInverse, if_pos odd]
  rfl

theorem product_approximation (odd : m % 2 = 1) : m * (approximation m 4).toInt % UInt32.size = 1 := by
  have right : InverseTo 32 m (approximation m 4) := inverseTo_approximation odd 4
  exact Int.emod_eq_emod_iff_emod_sub_eq_zero.mpr (Int.emod_eq_zero_of_dvd right)

theorem oddInverse_ok (odd : m % 2 = 1) :
    ∃ inverse, oddInverse m = .ok inverse ∧ Int32.ofInt m * inverse = 1 := by
  refine ⟨_, oddInverse_eq odd, ?_⟩
  have one : Int32.ofInt (m * (approximation m 4).toInt) = Int32.ofInt 1 :=
    (ofInt_eq_iff _ _).mpr (product_approximation odd)
  rwa [Int32.ofInt_mul, Int32.ofInt_toInt] at one

/-- The inverse exists for odd numbers of any size, and is found in four steps. Only even numbers are refused. -/
theorem oddInverse_inverts (m : Int) :
    ((∃ error, oddInverse m = .error error) ↔ m % 2 = 0) ∧
      (m % 2 = 1 → ∃ inverse : Int32, oddInverse m = .ok inverse ∧ m * inverse.toInt % UInt32.size = 1 ∧
        inverse = approximation m 4 ∧ ∀ steps, InverseTo (min 32 (3 * twoTo steps)) m (approximation m steps)) := by
  refine ⟨⟨?_, fun even => ?_⟩, fun odd => ?_⟩
  · rintro ⟨error, refused⟩
    refine (Int.emod_two_eq m).resolve_right fun odd => ?_
    rw [oddInverse_eq odd] at refused
    cases refused
  · exact ⟨.evenInverse, by rw [oddInverse, if_neg (by omega)]⟩
  · exact ⟨_, oddInverse_eq odd, product_approximation odd, rfl, inverseTo_approximation odd⟩

theorem oddInverse_inverts_wide : -9007199254740991 % 2 = (1 : Int) ∧
    ∃ inverse : Int32, oddInverse (-9007199254740991) = .ok inverse ∧
      -9007199254740991 * inverse.toInt % UInt32.size = 1 := by
  have odd : -9007199254740991 % 2 = (1 : Int) := by decide
  obtain ⟨inverse, found, product, _⟩ := (oddInverse_inverts (-9007199254740991)).2 odd
  exact ⟨odd, inverse, found, product⟩

/-- Three steps are too few for three. -/
example : 3 * approximation 3 3 ≠ 1 ∧ 3 * approximation 3 4 = 1 := by decide

end TapeScript.Numeric
