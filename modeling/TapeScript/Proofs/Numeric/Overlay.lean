import Mathlib.Logic.Function.Iterate

/-! A word with a shifted copy of itself laid over it. The copy can be taken off again, because repeated shifts
leave nothing of a word, so that no two words come to look alike. -/
namespace TapeScript.Numeric

/-- A word with its shifted copy laid over it. -/
def overlay (shift : UInt32 → UInt32) (word : UInt32) : UInt32 := word ^^^ shift word

/-- The copy taken off in rounds, each of which restores as many bits as the shift is wide. -/
def uncover (shift : UInt32 → UInt32) : Nat → UInt32 → UInt32
  | 0, _ => 0
  | rounds + 1, word => word ^^^ shift (uncover shift rounds word)

/-- Whether a shift treats each bit on its own. -/
def Bitwise (shift : UInt32 → UInt32) : Prop :=
  ∀ first second, shift (first ^^^ second) = shift first ^^^ shift second

/-- Shifts that leave nothing of a word after some rounds. -/
structure Fading (rounds : Nat) (shift : UInt32 → UInt32) : Prop where
  bitwise : Bitwise shift
  vanishes : ∀ word, shift^[rounds] word = 0

variable {shift : UInt32 → UInt32}

private theorem xor_cancel (first second : UInt32) : first ^^^ (first ^^^ second) = second := by
  rw [← UInt32.xor_assoc, UInt32.xor_self, UInt32.zero_xor]

theorem Bitwise.zero (bitwise : Bitwise shift) : shift 0 = 0 := by
  have halves := bitwise 0 0
  rwa [UInt32.xor_self, UInt32.xor_self] at halves

/-- After some rounds the word is wrong by what as many shifts leave of it. -/
theorem Bitwise.uncover_overlay (bitwise : Bitwise shift) (rounds : Nat) (word : UInt32) :
    uncover shift rounds (overlay shift word) = word ^^^ shift^[rounds] word := by
  induction rounds with
  | zero => exact UInt32.xor_self.symm
  | succ rounds ih =>
    calc uncover shift (rounds + 1) (overlay shift word)
        = overlay shift word ^^^ shift (word ^^^ shift^[rounds] word) := by rw [uncover, ih]
      _ = word ^^^ (shift word ^^^ (shift word ^^^ shift (shift^[rounds] word))) := by
          rw [overlay, bitwise, UInt32.xor_assoc]
      _ = word ^^^ shift^[rounds + 1] word := by rw [xor_cancel, Function.iterate_succ_apply']

theorem Bitwise.overlay_uncover (bitwise : Bitwise shift) (rounds : Nat) (word : UInt32) :
    overlay shift (uncover shift rounds word) = word ^^^ shift^[rounds] word := by
  induction rounds with
  | zero =>
    rw [uncover, overlay, bitwise.zero]
    exact UInt32.xor_self.symm
  | succ rounds ih =>
    generalize before : uncover shift rounds word = partly at ih
    -- The innermost copy is the one that the rounds so far are about.
    calc overlay shift (uncover shift (rounds + 1) word)
        = word ^^^ (shift partly ^^^ shift (word ^^^ shift partly)) := by
          rw [uncover, before, overlay, UInt32.xor_assoc]
      _ = word ^^^ shift (word ^^^ overlay shift partly) := by
          rw [← bitwise, overlay, UInt32.xor_comm partly, UInt32.xor_assoc, UInt32.xor_comm partly]
      _ = word ^^^ shift^[rounds + 1] word := by rw [ih, xor_cancel, Function.iterate_succ_apply']

namespace Fading

variable {rounds : Nat}

theorem leftInverse (fading : Fading rounds shift) : Function.LeftInverse (uncover shift rounds) (overlay shift) := by
  intro word
  rw [fading.bitwise.uncover_overlay, fading.vanishes, UInt32.xor_zero]

theorem rightInverse (fading : Fading rounds shift) : Function.RightInverse (uncover shift rounds) (overlay shift) := by
  intro word
  rw [fading.bitwise.overlay_uncover, fading.vanishes, UInt32.xor_zero]

end Fading

variable {distance : UInt32} {rounds : Nat}

private theorem clear_of_bits {word : UInt32} (clear : ∀ place < 32, word.toBitVec.getLsbD place = false) :
    word = 0 := by
  apply UInt32.toBitVec_inj.mp
  apply BitVec.eq_of_getLsbD_eq
  intro place within
  rw [clear place within]
  exact BitVec.getLsbD_zero.symm

private theorem toNat_distance (within : distance.toNat < 32) : (distance.toBitVec % 32).toNat = distance.toNat := by
  rw [BitVec.toNat_umod]
  exact Nat.mod_eq_of_lt within

theorem bit_shiftLeft (within : distance.toNat < 32) (word : UInt32) (place : Nat) :
    (word <<< distance).toBitVec.getLsbD place =
      (decide (place < 32) && !decide (place < distance.toNat) && word.toBitVec.getLsbD (place - distance.toNat)) := by
  rw [UInt32.toBitVec_shiftLeft, BitVec.shiftLeft_eq', toNat_distance within, BitVec.getLsbD_shiftLeft]

theorem bit_shiftRight (within : distance.toNat < 32) (word : UInt32) (place : Nat) :
    (word >>> distance).toBitVec.getLsbD place = word.toBitVec.getLsbD (distance.toNat + place) := by
  rw [UInt32.toBitVec_shiftRight, BitVec.ushiftRight_eq', toNat_distance within, BitVec.getLsbD_ushiftRight]

/-- Shifts to the left clear the low bits. -/
theorem bit_iterate_shiftLeft (within : distance.toNat < 32) (word : UInt32) (rounds : Nat) {place : Nat}
    (low : place < rounds * distance.toNat) : ((· <<< distance)^[rounds] word).toBitVec.getLsbD place = false := by
  induction rounds generalizing place with
  | zero => omega
  | succ rounds ih =>
    rw [Function.iterate_succ_apply', bit_shiftLeft within]
    by_cases moved : place < distance.toNat
    · simp [moved]
    · have lower : place - distance.toNat < rounds * distance.toNat := by
        rw [Nat.succ_mul] at low
        omega
      simp [ih lower]

/-- Shifts to the right clear the high bits. -/
theorem bit_iterate_shiftRight (within : distance.toNat < 32) (word : UInt32) (rounds : Nat) {place : Nat}
    (high : 32 ≤ place + rounds * distance.toNat) :
    ((· >>> distance)^[rounds] word).toBitVec.getLsbD place = false := by
  induction rounds generalizing place with
  | zero => exact BitVec.getLsbD_of_ge _ _ (by omega)
  | succ rounds ih =>
    rw [Function.iterate_succ_apply', bit_shiftRight within]
    apply ih
    rw [Nat.succ_mul] at high
    omega

theorem fading_shiftLeft (within : distance.toNat < 32) (enough : 32 ≤ rounds * distance.toNat) :
    Fading rounds (· <<< distance) where
  bitwise _ _ := UInt32.shiftLeft_xor
  vanishes word := clear_of_bits fun _ low => bit_iterate_shiftLeft within word rounds (Nat.lt_of_lt_of_le low enough)

theorem fading_shiftRight (within : distance.toNat < 32) (enough : 32 ≤ rounds * distance.toNat) :
    Fading rounds (· >>> distance) where
  bitwise _ _ := UInt32.shiftRight_xor
  vanishes word := clear_of_bits fun _ _ =>
    bit_iterate_shiftRight within word rounds (Nat.le_trans enough (Nat.le_add_left _ _))

end TapeScript.Numeric
