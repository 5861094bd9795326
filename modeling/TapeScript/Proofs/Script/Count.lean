import TapeScript.Proofs.Numeric
import TapeScript.Script.Statement

/-! The expression that computes the count of a reduced loop. It is emitted as text, so its value is told
by its operators: each takes its operands to 32 bits by itself, some as signed numbers and some as
unsigned ones. -/
namespace TapeScript

namespace Script

/-- An expression over the current cell. -/
inductive Expression where
  | cell
  | decimal (value : Int)
  | hexadecimal (value : Nat)
  | product (left right : Expression)
  | shiftRight (operand : Expression) (distance : Nat)
  | conjunction (left right : Expression)
  deriving DecidableEq, Repr

namespace Expression

def text : Expression → String
  | cell => cellAt 0
  | decimal value => toString value
  | hexadecimal value => "0x" ++ String.ofList (Nat.toDigits 16 value)
  | product left right => "Math.imul(" ++ left.text ++ ", " ++ right.text ++ ")"
  | shiftRight operand distance => operand.text ++ " >>> " ++ toString distance
  | conjunction left right => left.text ++ " & " ++ right.text

/-- The value where the current cell holds the origin. A product and a conjunction are signed, and a shift
is unsigned. -/
def value (origin : Int32) : Expression → Int
  | cell => origin.toInt
  | decimal value => value
  | hexadecimal value => value
  | product left right => (Int32.ofInt (left.value origin) * Int32.ofInt (right.value origin)).toInt
  | shiftRight operand distance =>
    ((Int32.ofInt (operand.value origin)).toUInt32 >>> UInt32.ofNat distance).toNat
  | conjunction left right => (Int32.ofInt (left.value origin) &&& Int32.ofInt (right.value origin)).toInt

end Expression
end Script

namespace CountFormula

open Numeric
open Script (Expression)

/-- The expression of a formula. -/
def expression : CountFormula → Expression
  | product inverse => .shiftRight (.product .cell (.decimal inverse.toInt)) 0
  | quotient shift => .shiftRight .cell shift
  | quotientProduct shift inverse =>
    .conjunction (.product (.shiftRight .cell shift) (.decimal inverse.toInt)) (.hexadecimal (mask shift))

/-- The expression is written as the text of the formula. -/
theorem text_expression (formula : CountFormula) : formula.expression.text = formula.text := by
  cases formula with
  | product inverse =>
    have before : "Math.imul(" ++ "d[p]" ++ ", " = "Math.imul(d[p], " := rfl
    have after : ")" ++ (" >>> " ++ "0") = ") >>> 0" := rfl
    show "Math.imul(" ++ "d[p]" ++ ", " ++ toString inverse.toInt ++ ")" ++ " >>> " ++ "0" = _
    rw [before, String.append_assoc, String.append_assoc, after]
    rfl
  | quotient shift =>
    have before : "d[p]" ++ " >>> " = "d[p] >>> " := rfl
    show "d[p]" ++ " >>> " ++ toString shift = _
    rw [before]
    rfl
  | quotientProduct shift inverse =>
    have before : "Math.imul(" ++ ("d[p]" ++ " >>> ") = "Math.imul(d[p] >>> " := rfl
    have after : ")" ++ (" & " ++ "0x") = ") & 0x" := rfl
    have regroup (distance factor bits : String) :
        "Math.imul(" ++ ("d[p]" ++ " >>> " ++ distance) ++ ", " ++ factor ++ ")" ++ " & " ++ ("0x" ++ bits) =
          "Math.imul(" ++ ("d[p]" ++ " >>> ") ++ distance ++ ", " ++ factor ++ (")" ++ (" & " ++ "0x")) ++ bits := by
      simp only [String.append_assoc]
    exact (regroup _ _ _).trans (by rw [before, after]; rfl)

private theorem toInt_of_small {word : UInt32} (small : word.toNat < twoTo 31) : word.toInt32.toInt = word.toNat := by
  have half : twoTo 31 = 2147483648 := rfl
  have bits : 2 * word.toNat < 2147483648 * 2 := by omega
  exact BitVec.toInt_eq_toNat_of_lt (x := word.toBitVec) bits

private theorem mask_small {shift : Nat} (positive : shift ≠ 0) : mask shift < twoTo 31 := by
  have room : twoTo 31 = twoTo (32 - shift) * twoTo (31 - (32 - shift)) := by
    rw [← twoTo_add]
    congr 1
    omega
  have bits := Nat.le_mul_of_pos_right (twoTo (32 - shift)) (twoTo_pos (31 - (32 - shift)))
  rw [← room] at bits
  exact Nat.lt_of_lt_of_le (Nat.sub_lt (twoTo_pos _) (by decide)) bits

/-- A mask is used only beside a shift, so it has no sign bit. -/
private theorem shift_of_quotientProduct {divisor : Int} {shift : Nat} {inverse : Int32}
    (made : ofDivisor divisor = .ok (quotientProduct shift inverse)) : shift ≠ 0 := by
  unfold ofDivisor at made
  cases inverted : oddInverse (divisor >>> lowZeroCount divisor) with
  | error error => simp [inverted, bind, Except.bind] at made
  | ok found =>
    simp only [inverted, bind, Except.bind, Except.ok.injEq] at made
    split at made
    · cases made
    · split at made
      · cases made
      · cases made
        assumption

/-- The operators of the expression compute the value of the formula. -/
theorem value_expression {divisor : Int} {formula : CountFormula} (made : ofDivisor divisor = .ok formula)
    (origin : Int32) : formula.expression.value origin = (formula.value origin).toNat := by
  cases formula with
  | product inverse =>
    have whole (word : UInt32) : word >>> UInt32.ofNat 0 = word := by simp
    simp only [expression, Expression.value, value, Int32.ofInt_toInt, Int32.toUInt32_mul, whole]
  | quotient shift => simp [expression, Expression.value, value]
  | quotientProduct shift inverse =>
    have small := mask_small (shift_of_quotientProduct made)
    have half : twoTo 31 < UInt32.size := by decide
    have bits : (UInt32.ofNat (mask shift)).toNat = mask shift := UInt32.toNat_ofNat_of_lt' (Nat.lt_trans small half)
    have masked : Int32.ofInt (mask shift) = (UInt32.ofNat (mask shift)).toInt32 := by rw [toInt32_eq, bits]
    have words : Int32.ofInt (origin.toUInt32 >>> UInt32.ofNat shift).toNat * inverse =
        ((origin.toUInt32 >>> UInt32.ofNat shift) * inverse.toUInt32).toInt32 := by
      rw [UInt32.toInt32_mul, Int32.toInt32_toUInt32 inverse, ← toInt32_eq]
    simp only [expression, Expression.value, value, Int32.ofInt_toInt]
    rw [words, masked, ← UInt32.toInt32_and]
    apply toInt_of_small
    rw [UInt32.toNat_and, bits]
    exact Nat.lt_of_le_of_lt Nat.and_le_right small

end CountFormula

namespace Numeric

/-- So many drops by the divisor take a word from the origin to zero. -/
def Exhausts (divisor : Int) (origin : Int32) (times : Int) : Prop :=
  times * divisor % UInt32.size = origin.toInt % UInt32.size

theorem exhausts_iff (divisor : Int) (origin : Int32) (times : Int) :
    Exhausts divisor origin times ↔ Int32.ofInt (times * divisor) = origin := by
  rw [Exhausts, ← ofInt_eq_iff, Int32.ofInt_toInt]

end Numeric

open Numeric

/-- For every divisor of less than 32 bits, the expression of the count has as its value the least number of
drops that take the origin to zero. If the power of two in the divisor does not divide the origin there is
no such number, but the value stays below its bound. -/
theorem count_least (divisor : Int) (nonzero : divisor ≠ 0) (bound : divisor.natAbs < UInt32.size) :
    ∃ formula, CountFormula.ofDivisor divisor = .ok formula ∧ formula.expression.text = formula.text ∧
      ∃ shift < 32, LargestPower shift divisor ∧
        ∀ origin : Int32, ∃ count : Int, formula.expression.value origin = count ∧
        (iterations divisor origin).toNat = count ∧ 0 ≤ count ∧ count < twoTo (32 - shift) ∧
        ((twoTo shift : Int) ∣ origin.toInt → Exhausts divisor origin count ∧
          ∀ fewer, 0 ≤ fewer → fewer < count → ¬Exhausts divisor origin fewer) ∧
        (¬(twoTo shift : Int) ∣ origin.toInt → ∀ times, ¬Exhausts divisor origin times) := by
  obtain ⟨shift, small, formula, power, computed, spec⟩ := CountFormula.solves_iff nonzero bound
  refine ⟨formula, computed, formula.text_expression, shift, small, power, fun origin => ?_⟩
  obtain ⟨below, solves⟩ := spec origin
  have same : iterations divisor origin = formula.value origin := by rw [iterations, computed]
  have below : ((formula.value origin).toNat : Int) < twoTo (32 - shift) := Int.ofNat_lt.mpr below
  refine ⟨(formula.value origin).toNat, CountFormula.value_expression computed origin, by rw [same],
    Int.natCast_nonneg _, below, fun divides => ⟨?_, fun fewer nonnegative less exhausts => ?_⟩,
    fun indivisible times exhausts => ?_⟩
  · rw [exhausts_iff, solves]
    exact ⟨divides, Int.emod_eq_of_lt (Int.natCast_nonneg _) below⟩
  · rw [exhausts_iff, solves, Int.emod_eq_of_lt nonnegative (Int.lt_trans less below)] at exhausts
    exact Int.ne_of_lt less exhausts.2
  · rw [exhausts_iff, solves] at exhausts
    exact indivisible exhausts.1

/-- A counter that goes up from minus eight by twelves. -/
theorem count_least_upwards :
    ∃ formula, CountFormula.ofDivisor (-12) = .ok formula ∧ LargestPower 2 (-12) ∧
      formula.expression.text = "Math.imul(d[p] >>> 2, 1431655765) & 0x3fffffff" ∧
      formula.expression.value (-8) = 357913942 ∧ Exhausts (-12) (-8) 357913942 ∧
      ∀ fewer, 0 ≤ fewer → fewer < 357913942 → ¬Exhausts (-12) (-8) fewer := by
  have made : CountFormula.ofDivisor (-12) = .ok (.quotientProduct 2 1431655765) := rfl
  obtain ⟨formula, computed, text, shift, _, power, spec⟩ := count_least (-12) (by decide) (by decide)
  obtain rfl := Except.ok.inj (made.symm.trans computed)
  have parts : (-12 : Int) = twoTo 2 * -3 := rfl
  have single : LargestPower 2 (-12) := largestPower_of_odd parts rfl
  obtain rfl : shift = 2 := power.unique single
  obtain ⟨count, value, same, _, _, solved, _⟩ := spec (-8)
  have number : count = 357913942 := by
    rw [← same, iterations, made]
    decide
  subst number
  obtain ⟨exhausts, least⟩ := solved (by decide)
  exact ⟨_, computed, power, text.trans rfl, value, exhausts, least⟩

end TapeScript
