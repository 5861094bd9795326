import TapeScript.Random

/-! What holds of everything that can be drawn, whatever the state of the generator is. -/
namespace TapeScript.Random

variable {α β : Type}

/-- All that can be drawn has a property. -/
def Always (holds : α → Prop) (draw : Random α) : Prop := ∀ generator, holds (draw.run generator).1

namespace Always

variable {holds : α → Prop} {after : β → Prop} {draw : Random α}

theorem pure {value : α} (here : holds value) : Always holds (pure value) := fun _ => here

theorem bind {next : α → Random β} (first : Always holds draw)
    (later : ∀ value, holds value → Always after (next value)) :
    Always after (draw >>= next) := fun generator =>
  later _ (first generator) (draw.run generator).2

theorem imp {weaker : α → Prop} (always : Always holds draw) (implies : ∀ value, holds value → weaker value) :
    Always weaker draw := fun generator => implies _ (always generator)

theorem and {other : α → Prop} (always : Always holds draw) (alwaysOther : Always other draw) :
    Always (fun value => holds value ∧ other value) draw := fun generator => ⟨always generator, alwaysOther generator⟩

end Always

theorem always_true (draw : Random α) : Always (fun _ => True) draw := fun _ => trivial

theorem le_between (low high : Nat) : Always (low ≤ ·) (between low high) :=
  (always_true word).bind fun _ _ => .pure (Nat.le_add_right _ _)

theorem between_le {low high : Nat} (order : low ≤ high) : Always (· ≤ high) (between low high) := by
  refine (always_true word).bind fun drawn _ => .pure ?_
  have below : drawn.toNat % (high - low + 1) < high - low + 1 := Nat.mod_lt _ (Nat.succ_pos _)
  omega

theorem always_choice {holds : String → Prop} {first : String} {others : List String}
    (all : ∀ text ∈ first :: others, holds text) : Always holds (choice first others) := by
  refine (always_true _).bind fun index _ => .pure ?_
  cases found : (first :: others)[index]? with
  | none => exact all first (by simp)
  | some text => exact all text (List.mem_of_getElem? found)

/-- What holds of the texts that are drawn holds of them joined. -/
theorem always_repeated {holds : String → Prop} {draw : Random String} (each : Always holds draw) (empty : holds "")
    (append : ∀ text after, holds text → holds after → holds (text ++ after)) (count : Nat) :
    Always holds (repeated count draw) := by
  induction count with
  | zero => exact .pure empty
  | succ count ih => exact each.bind fun _ first => ih.bind fun _ rest => .pure (append _ _ first rest)

/-- Texts that are no longer than so many characters. -/
abbrev Within (bound : Nat) : Random String → Prop := Always (·.length ≤ bound)

theorem length_copies (c : Char) (count : Nat) : (copies c count).length = count := by
  simp [copies]

theorem repeated_within {bound : Nat} {draw : Random String} (each : Within bound draw) (count : Nat) :
    Within (count * bound) (repeated count draw) := by
  induction count with
  | zero => exact .pure (by simp)
  | succ count ih =>
    refine each.bind fun first short => ih.bind fun rest shortRest => .pure ?_
    rw [String.length_append, Nat.succ_mul]
    omega

private theorem copies_within {bound : Nat} {low high : Nat} (c : Char) (order : low ≤ high) (fits : high ≤ bound) :
    Within bound (do return copies c (← between low high)) :=
  (between_le order).bind fun count small => .pure (by rw [length_copies]; exact Nat.le_trans small fits)

theorem flatPiece_within (kind : Nat) : Within 12 (flatPiece kind) := by
  match kind with
  | 0 | 1 => exact copies_within '+' (by decide) (by decide)
  | 2 => exact copies_within '-' (by decide) (by decide)
  | 3 => exact copies_within '>' (by decide) (by decide)
  | 4 => exact copies_within '<' (by decide) (by decide)
  | 5 => exact always_choice (by decide)
  | _ + 6 => exact always_choice (by decide)

theorem loopPiece_within {bound : Nat} {body : Random String} (short : Within bound body) :
    Within (bound + 10) (loopPiece body) := by
  refine (between_le (by decide)).bind fun distance near => short.bind fun body short => always_choice ?_
  have marks : "[-".length = 2 ∧ "[".length = 1 ∧ "-]".length = 2 ∧ "]".length = 1 ∧ "[--".length = 3 := by decide
  simp only [List.mem_cons, List.not_mem_nil, or_false]
  rintro text (rfl | rfl | rfl | rfl) <;> simp only [String.length_append, length_copies, marks] <;> omega

/-- A bound on the length of blocks: six pieces at most, each of them flat or a loop around a block. -/
def blockBound : Nat → Nat
  | 0 => 72
  | depth + 1 => 6 * (blockBound depth + 10)

private theorem blockBound_large (depth : Nat) : 12 ≤ blockBound depth + 10 := by
  cases depth <;> simp [blockBound]
  omega

private theorem pieces_within {bound : Nat} {draw : Random String} (each : Within bound draw) :
    Within (6 * bound) (do
      let count ← between 1 6
      repeated count draw) :=
  (between_le (by decide)).bind fun count few =>
    (repeated_within each count).imp fun _ short => Nat.le_trans short (Nat.mul_le_mul_right bound few)

theorem block_within (depth : Nat) : Within (blockBound depth) (block depth) := by
  induction depth with
  | zero => exact pieces_within ((always_true _).bind fun kind _ => flatPiece_within kind)
  | succ depth ih =>
    refine pieces_within ((always_true _).bind fun kind _ => ?_)
    by_cases flat : kind ≤ 6
    · rw [if_pos flat]
      exact (flatPiece_within kind).imp fun _ short => Nat.le_trans short (blockBound_large depth)
    · rw [if_neg flat]
      exact loopPiece_within ih

/-- Random programs are short. -/
theorem program_short : Always (fun program => program.source.length < UInt32.size) program := by
  refine (between_le (by decide)).bind fun blocks few => ?_
  refine (repeated_within (block_within maxDepth) blocks).bind fun source short => ?_
  refine (always_true _).bind fun length _ => (always_true _).bind fun input _ => .pure ?_
  have bound : blocks * blockBound maxDepth ≤ 5 * blockBound maxDepth := Nat.mul_le_mul_right _ few
  have value : 5 * blockBound maxDepth < UInt32.size := by decide
  exact Nat.lt_of_le_of_lt short (Nat.lt_of_le_of_lt bound value)

end TapeScript.Random
