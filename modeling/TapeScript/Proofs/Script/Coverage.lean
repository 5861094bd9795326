import TapeScript.Proofs.Emission
import TapeScript.Proofs.Result

/-! Which tokens have a statement. Only three things can be missing: a kind, the template of an extension, and a
formula for the count of a reduced loop. -/
namespace TapeScript

namespace Numeric

theorem lowZeros_le (bits : Nat) (n : Int) : lowZeros bits n ≤ bits := by
  induction bits generalizing n with
  | zero => exact Nat.le_refl _
  | succ bits ih =>
    rw [lowZeros]
    split
    · exact Nat.succ_le_succ (ih _)
    · exact Nat.zero_le _

/-- Whether the low zeros of a number end within a word. -/
theorem odd_iff_not_dvd {n odd : Int} (parts : n = twoTo (lowZeroCount n) * odd)
    (ends : odd % 2 = 1 ∨ lowZeroCount n = 32) : odd % 2 = 1 ↔ ¬(twoTo 33 : Int) ∣ n := by
  constructor
  · intro isOdd divides
    have more := (largestPower_of_odd parts isOdd).largest 33 divides
    exact absurd (lowZeros_le 32 n) (Nat.not_le.mpr more)
  · intro ends'
    refine (Int.emod_two_eq odd).resolve_left fun even => ends' ?_
    have all := ends.resolve_left (by omega)
    rw [all] at parts
    obtain ⟨half, rfl⟩ : (2 : Int) ∣ odd := Int.dvd_of_emod_eq_zero even
    have wider : (twoTo 33 : Int) = twoTo 32 * 2 := rfl
    exact ⟨half, by rw [parts, wider, Int.mul_assoc]⟩

end Numeric

open Numeric

/-- The count has a formula for every divisor with no more than 32 factors of two. -/
theorem CountFormula.ofDivisor_ok_iff (divisor : Int) :
    (∃ formula, ofDivisor divisor = .ok formula) ↔ ¬(twoTo 33 : Int) ∣ divisor := by
  obtain ⟨odd, parts, ends⟩ : ∃ odd, divisor = twoTo (lowZeroCount divisor) * odd ∧
      (odd % 2 = 1 ∨ lowZeroCount divisor = 32) := lowZeros_spec 32 divisor
  rw [← odd_iff_not_dvd parts ends, ofDivisor, quotient_eq parts]
  constructor
  · rintro ⟨formula, made⟩
    obtain ⟨inverse, inverted, _⟩ := bind_ok_iff.mp made
    refine (Int.emod_two_eq odd).resolve_left fun even => ?_
    rw [oddInverse, if_neg (by omega)] at inverted
    cases inverted
  · intro isOdd
    obtain ⟨inverse, inverted, _⟩ := oddInverse_ok isOdd
    exact ⟨_, bind_ok_iff.mpr ⟨inverse, inverted, rfl⟩⟩

namespace Token

variable {dialect : Dialect} {token : Token}

/-- Tokens that a dialect has statements for: its extensions cover them, and a count that has to be computed
has a formula. -/
inductive Covered (dialect : Dialect) : Token → Prop where
  | common {token : Token} (common : token.Common) : Covered dialect token
  | extension {token : Token} (kind : token.kind = .extension)
      (found : (Extension.template? dialect.extensions token.symbol?).isSome = true) : Covered dialect token
  | reduced {token : Token} (kind : token.kind = .reduced)
      (statements : ∀ statement ∈ token.body, Covered dialect statement)
      (divides : token.loopDivisor = 0 ∨ ¬(twoTo 33 : Int) ∣ token.loopDivisor) : Covered dialect token

theorem template_reduced (kind : token.kind = .reduced) : token.template dialect = (do
    let lines ← templates dialect token.body
    let count ← token.countStatement
    .ok ("\n".intercalate (count ++ lines))) := by
  obtain ⟨_, amount, offset, divisor?, body?, symbol?⟩ := token
  cases kind
  cases body? <;> rfl

theorem template_extension_ok_iff (kind : token.kind = .extension) : (∃ text, token.template dialect = .ok text) ↔
    (Extension.template? dialect.extensions token.symbol?).isSome = true := by
  obtain ⟨_, amount, offset, divisor?, body?, symbol?⟩ := token
  cases kind
  simp only [template]
  cases Extension.template? dialect.extensions symbol? <;> simp

theorem templates_ok_iff {tokens : List Token} : (∃ texts, templates dialect tokens = .ok texts) ↔
    ∀ token ∈ tokens, ∃ text, token.template dialect = .ok text := by
  induction tokens with
  | nil => simp [templates]
  | cons token tokens ih =>
    rw [List.forall_mem_cons, ← ih]
    constructor
    · rintro ⟨texts, made⟩
      obtain ⟨first, here, made⟩ := bind_ok_iff.mp made
      obtain ⟨others, rest, _⟩ := bind_ok_iff.mp made
      exact ⟨⟨first, here⟩, others, rest⟩
    · rintro ⟨⟨first, here⟩, others, rest⟩
      exact ⟨_, bind_ok_iff.mpr ⟨first, here, bind_ok_iff.mpr ⟨others, rest, rfl⟩⟩⟩

theorem countStatement_ok_iff : (∃ lines, token.countStatement = .ok lines) ↔
    token.loopDivisor = 0 ∨ ¬(twoTo 33 : Int) ∣ token.loopDivisor := by
  rw [← CountFormula.ofDivisor_ok_iff, countStatement]
  split
  · rename_i none
    simp [none]
  · rename_i some
    simp only [some, false_or]
    constructor
    · rintro ⟨lines, made⟩
      obtain ⟨formula, found, _⟩ := bind_ok_iff.mp made
      exact ⟨formula, found⟩
    · rintro ⟨formula, found⟩
      exact ⟨_, bind_ok_iff.mpr ⟨formula, found, rfl⟩⟩

theorem template_reduced_ok_iff (kind : token.kind = .reduced) : (∃ text, token.template dialect = .ok text) ↔
    (∀ statement ∈ token.body, ∃ text, statement.template dialect = .ok text) ∧
      (token.loopDivisor = 0 ∨ ¬(twoTo 33 : Int) ∣ token.loopDivisor) := by
  rw [template_reduced kind, ← templates_ok_iff, ← countStatement_ok_iff]
  constructor
  · rintro ⟨text, made⟩
    obtain ⟨lines, inner, made⟩ := bind_ok_iff.mp made
    obtain ⟨count, counted, _⟩ := bind_ok_iff.mp made
    exact ⟨⟨lines, inner⟩, count, counted⟩
  · rintro ⟨⟨lines, inner⟩, count, counted⟩
    exact ⟨_, bind_ok_iff.mpr ⟨lines, inner, bind_ok_iff.mpr ⟨count, counted, rfl⟩⟩⟩

theorem sizeOf_statement {statement : Token} (member : statement ∈ token.body) : sizeOf statement < sizeOf token := by
  obtain ⟨kind, amount, offset, divisor?, body?, symbol?⟩ := token
  cases body? with
  | none => cases member
  | some body =>
    have inside : sizeOf statement < sizeOf body := List.sizeOf_lt_of_mem member
    simp only [mk.sizeOf_spec, Option.some.sizeOf_spec]
    omega

/-- A token has a statement if it is covered, and only then. -/
theorem template_ok_iff (token : Token) : (∃ text, token.template dialect = .ok text) ↔ token.Covered dialect := by
  constructor
  · intro made
    cases kind : token.kind with
    | extension => exact .extension kind ((template_extension_ok_iff kind).mp made)
    | reduced =>
      obtain ⟨statements, divides⟩ := (template_reduced_ok_iff kind).mp made
      exact .reduced kind (fun statement member => (template_ok_iff statement).mp (statements statement member)) divides
    | unknown code =>
      obtain ⟨_, amount, offset, divisor?, body?, symbol?⟩ := token
      cases kind
      obtain ⟨text, made⟩ := made
      cases made
    | _ => exact .common (by simp [Common, kind])
  · intro covered
    induction covered with
    | common common => exact common.printable.template
    | extension kind found => exact (template_extension_ok_iff kind).mpr found
    | reduced kind _ divides ih => exact (template_reduced_ok_iff kind).mpr ⟨ih, divides⟩
termination_by sizeOf token
decreasing_by exact sizeOf_statement member

end Token

end TapeScript
