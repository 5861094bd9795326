import Mathlib.Data.List.Forall2
import TapeScript.Proofs.Numeric.Double
import TapeScript.Proofs.Numeric.Overlay
import TapeScript.Proofs.Random

/-! The step of the generator permutes its states and keeps zero where it is. From another state zero is never
reached, whether single numbers are drawn or whole programs, and a number from an interval lies in the interval. -/
namespace TapeScript

namespace Generator

open Numeric

theorem scramble_eq (state : UInt32) :
    scramble state = overlay (· <<< 5) (overlay (· >>> 17) (overlay (· <<< 13) state)) := rfl

/-- The state before the given one. -/
def unscramble (state : UInt32) : UInt32 :=
  uncover (· <<< 13) 3 (uncover (· >>> 17) 2 (uncover (· <<< 5) 7 state))

private theorem fading_first : Fading 3 (· <<< 13) := fading_shiftLeft (by decide) (by decide)

private theorem fading_second : Fading 2 (· >>> 17) := fading_shiftRight (by decide) (by decide)

private theorem fading_third : Fading 7 (· <<< 5) := fading_shiftLeft (by decide) (by decide)

theorem unscramble_scramble (state : UInt32) : unscramble (scramble state) = state := by
  rw [scramble_eq, unscramble, fading_third.leftInverse, fading_second.leftInverse, fading_first.leftInverse]

theorem scramble_unscramble (state : UInt32) : scramble (unscramble state) = state := by
  rw [scramble_eq, unscramble, fading_first.rightInverse, fading_second.rightInverse, fading_third.rightInverse]

/-- The step on signed words. Only the shift to the right takes its word as unsigned. -/
def signedScramble (state : Int32) : Int32 :=
  let state := state ^^^ (state <<< 13)
  let state := state ^^^ (state.toUInt32 >>> 17).toInt32
  state ^^^ (state <<< 5)

theorem signedScramble_toInt32 (state : UInt32) : signedScramble state.toInt32 = (scramble state).toInt32 := rfl

/-- If the sign were shifted in, a word of ones would become the state that is never left. -/
example : (-1 : Int32) ^^^ ((-1 : Int32) >>> 17) = 0 := by decide

/-- The generator after a step. -/
def advance (generator : Generator) : Generator := generator.next.2

theorem advance_bijective : Function.Bijective advance := by
  refine Function.bijective_iff_has_inverse.mpr ⟨fun generator => ⟨unscramble generator.state⟩, ?_, ?_⟩
  · intro generator
    exact congrArg Generator.mk (unscramble_scramble generator.state)
  · intro generator
    exact congrArg Generator.mk (scramble_unscramble generator.state)

theorem advance_zero : advance ⟨0⟩ = ⟨0⟩ := rfl

variable {generator : Generator}

theorem advance_state_ne_zero (live : generator.state ≠ 0) : generator.advance.state ≠ 0 := by
  intro zero
  have same : generator.advance = advance ⟨0⟩ := (congrArg Generator.mk zero).trans advance_zero.symm
  exact live (congrArg Generator.state (advance_bijective.injective same))

theorem iterate_state_ne_zero (live : generator.state ≠ 0) (count : Nat) : (advance^[count] generator).state ≠ 0 := by
  induction count with
  | zero => exact live
  | succ count ih =>
    rw [Function.iterate_succ_apply']
    exact advance_state_ne_zero ih

end Generator

namespace Random

open Generator Numeric

variable {α β : Type} {low high : Int} {generator : Generator}

/-- A number from an interval takes one step, whatever the interval is. -/
theorem inclusive?_run (low high : Int) (generator : Generator) : (inclusive? low high).run generator =
    (if nearest (nearest (high - low) + 1) = 0 then none
      else some (nearest (low + (generator.advance.state.toNat : Int).tmod (nearest (nearest (high - low) + 1)))),
      generator.advance) := by
  have drawn : (inclusive? low high).run generator =
      (if nearest (nearest (high - low) + 1) = 0 then (pure none : Random (Option Int))
        else pure (some (nearest (low + (generator.advance.state.toNat : Int).tmod
          (nearest (nearest (high - low) + 1)))))).run generator.advance := rfl
  rw [drawn]
  split <;> rfl

theorem inclusive?_advance (low high : Int) (generator : Generator) :
    ((inclusive? low high).run generator).2 = generator.advance := by
  rw [inclusive?_run]

/-- What a number adds to the low end of its interval. -/
private theorem excess_bounds (order : low ≤ high) (drawn : Int) :
    0 ≤ drawn % (high - low + 1) ∧ drawn % (high - low + 1) ≤ high - low := by
  have positive : 0 < high - low + 1 := by omega
  exact ⟨Int.emod_nonneg drawn (Int.ne_of_gt positive), Int.le_of_lt_add_one (Int.emod_lt_of_pos drawn positive)⟩

/-- With ends of at most 2^51 nothing is rounded on the way. -/
theorem inclusive?_value (order : low ≤ high) (lowFits : low.natAbs ≤ twoTo 51) (highFits : high.natAbs ≤ twoTo 51)
    (generator : Generator) : ((inclusive? low high).run generator).1 =
      some (low + (generator.advance.state.toNat : Int) % (high - low + 1)) := by
  have bound : twoTo 51 = 2251799813685248 ∧ twoTo 53 = 9007199254740992 := by decide
  obtain ⟨least, most⟩ := excess_bounds order (generator.advance.state.toNat : Int)
  have width : nearest (high - low) = high - low := nearest_eq (by omega)
  have span : nearest (high - low + 1) = high - low + 1 := nearest_eq (by omega)
  have wide : high - low + 1 ≠ 0 := by omega
  have sum : nearest (low + (generator.advance.state.toNat : Int) % (high - low + 1)) =
      low + (generator.advance.state.toNat : Int) % (high - low + 1) := nearest_eq (by omega)
  rw [inclusive?_run, width, span, if_neg wide,
    Int.tmod_eq_emod_of_nonneg (Int.natCast_nonneg _), sum]

theorem inclusive?_within (order : low ≤ high) (lowFits : low.natAbs ≤ twoTo 51) (highFits : high.natAbs ≤ twoTo 51) :
    Always (fun answer? => ∃ number, answer? = some number ∧ low ≤ number ∧ number ≤ high) (inclusive? low high) := by
  intro generator
  obtain ⟨least, most⟩ := excess_bounds order (generator.advance.state.toNat : Int)
  exact ⟨_, inclusive?_value order lowFits highFits generator, by omega, by omega⟩

/-- Between natural numbers both ways to draw give the same. -/
theorem inclusive?_natCast {low high : Nat} (order : low ≤ high) (fits : high ≤ twoTo 51) (generator : Generator) :
    (inclusive? low high).run generator =
      (some (((between low high).run generator).1 : Int), ((between low high).run generator).2) := by
  have value := inclusive?_value (Int.ofNat_le.mpr order) (Nat.le_trans order fits) fits generator
  have width : (high : Int) - low + 1 = (high - low + 1 : Nat) := by omega
  have drawn : (between low high).run generator =
      (low + generator.advance.state.toNat % (high - low + 1), generator.advance) := rfl
  rw [drawn]
  refine Prod.ext (value.trans (congrArg some ?_)) (inclusive?_advance _ _ generator)
  rw [width]
  rfl

/-- What is asked of the generator: any number, or one of an interval. -/
inductive Request where
  | word
  | inclusive (low high : Int)
  deriving DecidableEq, Repr

def Request.draw : Request → Random (Option Int)
  | .word => do return some (← Random.word).toNat
  | .inclusive low high => inclusive? low high

/-- The answers to requests made one after the other. -/
def answers (requests : List Request) : Random (List (Option Int)) := requests.mapM Request.draw

/-- Whether an answer is right: a number other than zero, or one of the interval, as long as its ends are in order
and at most 2^51. -/
def Request.Answered : Request → Option Int → Prop
  | .word, answer? => ∃ number : UInt32, number ≠ 0 ∧ answer? = some (number.toNat : Int)
  | .inclusive low high, answer? => low ≤ high → low.natAbs ≤ twoTo 51 → high.natAbs ≤ twoTo 51 →
    ∃ number, answer? = some number ∧ low ≤ number ∧ number ≤ high

theorem Request.draw_advance (request : Request) (generator : Generator) :
    (request.draw.run generator).2 = generator.advance := by
  cases request with
  | word => rfl
  | inclusive low high => exact inclusive?_advance low high generator

theorem Request.draw_answered (request : Request) (live : generator.state ≠ 0) :
    request.Answered (request.draw.run generator).1 := by
  cases request with
  | word => exact ⟨generator.advance.state, advance_state_ne_zero live, rfl⟩
  | inclusive low high =>
    intro order lowFits highFits
    exact inclusive?_within order lowFits highFits generator

theorem answers_cons (request : Request) (rest : List Request) (generator : Generator) :
    (answers (request :: rest)).run generator =
      ((request.draw.run generator).1 :: ((answers rest).run generator.advance).1,
        ((answers rest).run generator.advance).2) := by
  rw [← request.draw_advance generator, answers, List.mapM_cons]
  rfl

theorem answers_advance (requests : List Request) (generator : Generator) :
    ((answers requests).run generator).2 = advance^[requests.length] generator := by
  induction requests generalizing generator with
  | nil => rfl
  | cons request rest ih =>
    rw [answers_cons]
    exact ih generator.advance

theorem answers_answered (requests : List Request) (live : generator.state ≠ 0) :
    List.Forall₂ Request.Answered requests ((answers requests).run generator).1 := by
  induction requests generalizing generator with
  | nil => exact .nil
  | cons request rest ih =>
    rw [answers_cons]
    exact .cons (request.draw_answered live) (ih (advance_state_ne_zero live))

/-- Drawing takes steps of the generator and does nothing else to it. -/
def Advancing (draw : Random α) : Prop := ∀ generator, ∃ count, (draw.run generator).2 = advance^[count] generator

namespace Advancing

variable {draw : Random α}

theorem pure (value : α) : Advancing (pure value) := fun _ => ⟨0, rfl⟩

theorem bind {next : α → Random β} (first : Advancing draw) (later : ∀ value, Advancing (next value)) :
    Advancing (draw >>= next) := by
  intro generator
  obtain ⟨count, reached⟩ := first generator
  obtain ⟨more, ended⟩ := later (draw.run generator).1 (draw.run generator).2
  refine ⟨more + count, ?_⟩
  rw [Function.iterate_add_apply, ← reached, ← ended]
  rfl

theorem state_ne_zero (advancing : Advancing draw) (live : generator.state ≠ 0) :
    (draw.run generator).2.state ≠ 0 := by
  obtain ⟨count, reached⟩ := advancing generator
  rw [reached]
  exact iterate_state_ne_zero live count

end Advancing

theorem advancing_word : Advancing word := fun _ => ⟨1, rfl⟩

theorem advancing_between (low high : Nat) : Advancing (between low high) := advancing_word.bind fun _ => .pure _

theorem advancing_choice (first : String) (others : List String) : Advancing (choice first others) :=
  (advancing_word.bind fun _ => .pure _).bind fun _ => .pure _

theorem advancing_repeated {draw : Random String} (each : Advancing draw) (count : Nat) :
    Advancing (repeated count draw) := by
  induction count with
  | zero => exact .pure _
  | succ count ih => exact each.bind fun _ => ih.bind fun _ => .pure _

theorem advancing_flatPiece (kind : Nat) : Advancing (flatPiece kind) := by
  match kind with
  | 0 | 1 | 2 | 3 | 4 => exact (advancing_between _ _).bind fun _ => .pure _
  | 5 | _ + 6 => exact advancing_choice _ _

theorem advancing_loopPiece {body : Random String} (each : Advancing body) : Advancing (loopPiece body) :=
  (advancing_between _ _).bind fun _ => each.bind fun _ => advancing_choice _ _

theorem advancing_block (depth : Nat) : Advancing (block depth) := by
  induction depth with
  | zero =>
    have piece := (advancing_between 0 6).bind advancing_flatPiece
    exact (advancing_between _ _).bind fun count => advancing_repeated piece count
  | succ depth ih =>
    refine (advancing_between _ _).bind fun count =>
      advancing_repeated ((advancing_between _ _).bind fun kind => ?_) count
    split
    · exact advancing_flatPiece kind
    · exact advancing_loopPiece ih

theorem advancing_program : Advancing program :=
  (advancing_between _ _).bind fun blocks => (advancing_repeated (advancing_block maxDepth) blocks).bind fun _ =>
    (advancing_between _ _).bind fun length =>
      (advancing_repeated ((advancing_between _ _).bind fun _ => .pure _) length).bind fun _ => .pure _

/-- A word takes one step to another state and is that state. The step permutes the states and keeps zero where it
is, so that no run from any other state comes to it, and every answer on the way is right. -/
theorem word_permutes :
    (Function.Bijective fun generator => (word.run generator).2) ∧
      (∀ generator, (word.run generator).1 = (word.run generator).2.state ∧
        (word.run generator).1.toInt32 = signedScramble generator.state.toInt32) ∧
      word.run ⟨0⟩ = (0, ⟨0⟩) ∧
      ∀ generator : Generator, generator.state ≠ 0 → (program.run generator).2.state ≠ 0 ∧ ∀ requests,
        ((answers requests).run generator).2 =
            (fun generator => (word.run generator).2)^[requests.length] generator ∧
          ((answers requests).run generator).2.state ≠ 0 ∧
          List.Forall₂ Request.Answered requests ((answers requests).run generator).1 := by
  refine ⟨advance_bijective, fun generator => ⟨rfl, (signedScramble_toInt32 generator.state).symm⟩, rfl, ?_⟩
  intro generator live
  refine ⟨advancing_program.state_ne_zero live, fun requests => ?_⟩
  have steps := answers_advance requests generator
  refine ⟨steps, ?_, answers_answered requests live⟩
  rw [steps]
  exact iterate_state_ne_zero live requests.length

/-- The widest interval that the ends may have, between two other requests. -/
theorem word_permutes_widest : (1 : UInt32) ≠ 0 ∧
    ∃ first number last after,
      (answers [.word, .inclusive (-twoTo 51) (twoTo 51), .word]).run ⟨1⟩ = ([first, some number, last], after) ∧
        -twoTo 51 ≤ number ∧ number ≤ twoTo 51 ∧ after.state ≠ 0 := by
  have live : (1 : UInt32) ≠ 0 := by decide
  obtain ⟨_, runs⟩ := word_permutes.2.2.2 ⟨1⟩ live
  obtain ⟨_, reached, answered⟩ := runs [.word, .inclusive (-twoTo 51) (twoTo 51), .word]
  refine ⟨live, ?_⟩
  generalize (answers [.word, .inclusive (-twoTo 51) (twoTo 51), .word]).run ⟨1⟩ = run at *
  obtain ⟨given, after⟩ := run
  obtain _ | ⟨_, _ | ⟨inside, _ | ⟨_, _ | _⟩⟩⟩ := answered
  obtain ⟨number, rfl, least, most⟩ := inside (by decide) (by decide) (by decide)
  exact ⟨_, _, _, _, rfl, least, most, reached⟩

end Random

end TapeScript
