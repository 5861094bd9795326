import TapeScript.Proofs.Code
import TapeScript.Proofs.Random
import TapeScript.Proofs.Source
import TapeScript.Sample

/-! The text of random programs. Whatever is drawn, a program is written in the core instructions, its
brackets are paired and nest four deep at most, and its input is short and of low codes. A block nests one
deeper than the loops it may hold, because of the idioms, which are loops in the text. -/
namespace TapeScript

namespace Source

/-- Whether a character is a core instruction other than a bracket. -/
def isFlat (c : Char) : Bool := coreSymbols.toList.contains c && c != '[' && c != ']'

/-- Text of core instructions with paired brackets, of which no more than so many are open at any place. -/
structure Written (depth : Nat) (chars : List Char) : Prop where
  core : ∀ c ∈ chars, c ∈ coreSymbols.toList
  paired : Paired chars
  shallow : ∀ front, front <+: chars → front.count '[' ≤ front.count ']' + depth

variable {depth : Nat} {chars others : List Char}

theorem count_of_paired (paired : Paired chars) : chars.count '[' = chars.count ']' := by
  induction paired with
  | nil => rfl
  | other opening closing _ ih =>
    rw [List.count_cons, List.count_cons, ih, opening, closing]
  | @pair opener closer inner rest opening _ _ closing _ ihInner ih =>
    obtain rfl : opener = '[' := beq_iff_eq.mp opening
    obtain rfl : closer = ']' := beq_iff_eq.mp closing
    simp [ihInner, ih]
    omega

namespace Written

theorem nil (depth : Nat) : Written depth [] where
  core := by simp
  paired := .nil
  shallow front within := by simp [List.prefix_nil.mp within]

/-- Text without brackets. -/
theorem flat (plain : ∀ c ∈ chars, isFlat c = true) : Written 0 chars := by
  have each : ∀ c ∈ chars, c ∈ coreSymbols.toList ∧ c ≠ '[' ∧ c ≠ ']' := by
    intro c member
    simpa [isFlat, and_assoc] using plain c member
  refine ⟨fun c member => (each c member).1, ?_, fun front within => ?_⟩
  · clear plain
    induction chars with
    | nil => exact .nil
    | cons c chars ih =>
      obtain ⟨_, opening, closing⟩ := each c (by simp)
      exact .other (beq_eq_false_iff_ne.mpr opening) (beq_eq_false_iff_ne.mpr closing)
        (ih fun d member => each d (by simp [member]))
  · have none : front.count '[' = 0 :=
      List.count_eq_zero.mpr fun member => (each '[' (within.subset member)).2.1 rfl
    omega

theorem mono {deeper : Nat} (written : Written depth chars) (order : depth ≤ deeper) : Written deeper chars where
  core := written.core
  paired := written.paired
  shallow front within := by
    have bound := written.shallow front within
    omega

theorem append (written : Written depth chars) (after : Written depth others) : Written depth (chars ++ others) where
  core := by
    intro c member
    exact (List.mem_append.mp member).elim (written.core c) (after.core c)
  paired := written.paired.append after.paired
  shallow front within := by
    obtain ⟨rest, whole⟩ := within
    rcases List.append_eq_append_iff.mp whole with ⟨between, rfl, _⟩ | ⟨more, rfl, split⟩
    · exact written.shallow front ⟨between, rfl⟩
    · have bound := after.shallow more ⟨rest, split.symm⟩
      have level := count_of_paired written.paired
      rw [List.count_append, List.count_append]
      omega

/-- Brackets around a text are one level more. -/
theorem loop (written : Written depth chars) : Written (depth + 1) ('[' :: chars ++ [']']) where
  core := by
    have brackets : '[' ∈ coreSymbols.toList ∧ ']' ∈ coreSymbols.toList := by decide
    intro c member
    simp only [List.cons_append, List.mem_cons, List.mem_append, List.not_mem_nil, or_false] at member
    rcases member with rfl | inside | rfl
    · exact brackets.1
    · exact written.core c inside
    · exact brackets.2
  paired := .pair rfl written.paired rfl rfl .nil
  shallow front within := by
    rcases List.prefix_cons_iff.mp within with rfl | ⟨more, rfl, tail⟩
    · simp
    · rcases List.prefix_concat_iff.mp tail with rfl | inside
      · have level := count_of_paired written.paired
        simp [level]
      · have bound := written.shallow more inside
        simp
        omega

end Written
end Source

namespace Random

open Source (Written)

/-- A piece of a program: text that is not empty and nests at most so deep. -/
structure IsPiece (depth : Nat) (text : String) : Prop where
  written : Written depth text.toList
  some : text ≠ ""

/-- Whether a text is one of core instructions that are no brackets, and not empty. -/
def isFlat (text : String) : Bool := text.toList.all Source.isFlat && text != ""

variable {depth : Nat} {text other : String} {draw : Random String}

namespace IsPiece

theorem mono {deeper : Nat} (piece : IsPiece depth text) (order : depth ≤ deeper) : IsPiece deeper text :=
  ⟨piece.written.mono order, piece.some⟩

theorem append (piece : IsPiece depth text) (written : Written depth other.toList) : IsPiece depth (text ++ other) where
  written := by
    rw [String.toList_append]
    exact piece.written.append written
  some empty := piece.some (String.append_eq_empty_iff.mp empty).1

theorem loop (piece : IsPiece depth text) : IsPiece (depth + 1) ("[" ++ text ++ "]") where
  written := by
    rw [String.toList_append, String.toList_append]
    exact piece.written.loop
  some empty := absurd (String.append_eq_empty_iff.mp empty).2 (by decide)

theorem flat (flat : isFlat text = true) : IsPiece depth text := by
  obtain ⟨plain, some⟩ := (Bool.and_eq_true _ _).mp flat
  exact ⟨(Written.flat (List.all_eq_true.mp plain)).mono (Nat.zero_le depth), bne_iff_ne.mp some⟩

theorem copies {c : Char} {count : Nat} (plain : Source.isFlat c = true) (some : 1 ≤ count) :
    IsPiece depth (copies c count) := by
  have filled : count ≠ 0 := by omega
  exact .flat (by simp [isFlat, Random.copies, plain, filled])

end IsPiece

/-- Pieces one after the other are a piece, if there are any. -/
theorem repeated_isPiece (each : Always (IsPiece depth) draw) {count : Nat} (some : 1 ≤ count) :
    Always (IsPiece depth) (repeated count draw) := by
  obtain ⟨count, rfl⟩ : ∃ rest, count = rest + 1 := ⟨count - 1, by omega⟩
  have joined : Always (fun text => Written depth text.toList) (repeated count draw) := by
    refine always_repeated (each.imp fun _ piece => piece.written) (.nil depth) (fun text after first rest => ?_) count
    rw [String.toList_append]
    exact first.append rest
  exact each.bind fun _ piece => joined.bind fun _ written => .pure (piece.append written)

private theorem copies_isPiece {low high : Nat} (c : Char) (plain : Source.isFlat c = true) (some : 1 ≤ low) :
    Always (IsPiece 1) (do return copies c (← between low high)) :=
  (le_between low high).bind fun _ order => .pure (.copies plain (Nat.le_trans some order))

theorem flatPiece_isPiece (kind : Nat) : Always (IsPiece 1) (flatPiece kind) := by
  match kind with
  | 0 | 1 => exact copies_isPiece '+' (by decide) (by decide)
  | 2 => exact copies_isPiece '-' (by decide) (by decide)
  | 3 => exact copies_isPiece '>' (by decide) (by decide)
  | 4 => exact copies_isPiece '<' (by decide) (by decide)
  | 5 =>
    have idiom {text : String} (flat : isFlat text = true) : IsPiece 1 ("[" ++ text ++ "]") := (IsPiece.flat flat).loop
    refine always_choice ?_
    simp only [List.forall_mem_cons]
    exact ⟨.flat (by decide), .flat (by decide), .flat (by decide), @idiom "-" (by decide), @idiom ">" (by decide),
      @idiom "<" (by decide), by simp⟩
  | _ + 6 =>
    have flat : ["+-", "-+", "><", "<>"].all isFlat = true := by decide
    exact always_choice fun text member => .flat (List.all_eq_true.mp flat text member)

/-- A loop nests one deeper than its body. -/
theorem loopPiece_isPiece {body : Random String} (each : Always (IsPiece depth) body) :
    Always (IsPiece (depth + 1)) (loopPiece body) := by
  refine (le_between 1 3).bind fun distance some => each.bind fun body piece => always_choice ?_
  have down : IsPiece depth "-" := .flat (by decide)
  have forth : IsPiece depth (copies '>' distance) := .copies (by decide) some
  have back : IsPiece depth (copies '<' distance) := .copies (by decide) some
  have away : IsPiece depth (copies '>' distance ++ body ++ copies '<' distance) :=
    (forth.append piece.written).append back.written
  simp only [List.forall_mem_cons]
  generalize copies '>' distance ++ body ++ copies '<' distance = away at *
  have first := (down.append away.written).loop
  have last := (away.append down.written).loop
  have twice := (down.append (down.append away.written).written).loop
  have marks : "[" ++ "-" = "[-" ∧ "-" ++ "]" = "-]" ∧ "[-" ++ "-" = "[--" := by decide
  rw [← String.append_assoc, marks.1] at first
  rw [← String.append_assoc, String.append_assoc, marks.2.1] at last
  rw [← String.append_assoc, marks.1, ← String.append_assoc, marks.2.2] at twice
  exact ⟨first, last, piece.loop, twice, by simp⟩

private theorem pieces_isPiece (each : Always (IsPiece depth) draw) :
    Always (IsPiece depth) (do
      let count ← between 1 6
      repeated count draw) :=
  (le_between 1 6).bind fun _ some => repeated_isPiece each some

theorem block_isPiece (depth : Nat) : Always (IsPiece (depth + 1)) (block depth) := by
  induction depth with
  | zero => exact pieces_isPiece ((always_true _).bind fun kind _ => flatPiece_isPiece kind)
  | succ depth ih =>
    refine pieces_isPiece ((always_true _).bind fun kind _ => ?_)
    by_cases flat : kind ≤ 6
    · rw [if_pos flat]
      exact (flatPiece_isPiece kind).imp fun _ piece => piece.mono (by omega)
    · rw [if_neg flat]
      exact loopPiece_isPiece ih

theorem inputPiece_codes : Always (fun text => ∀ c ∈ text.toList, 1 ≤ c.toNat ∧ c.toNat ≤ 20) inputPiece := by
  refine ((le_between 1 20).and (between_le (by decide))).bind fun code ⟨low, high⟩ => .pure ?_
  have valid : code.isValidChar := .inl (by omega)
  have same : (Char.ofNat code).toNat = code := by
    rw [Char.ofNat, dif_pos valid]
    rfl
  simp [same, low, high]

theorem inputPiece_within : Within 1 inputPiece :=
  (always_true _).bind fun _ _ => .pure (by simp)

end Random

/-- Some instructions with paired brackets, four deep at most, and a short input of low codes. -/
structure RandomProgram.WellFormed (program : RandomProgram) : Prop where
  some : program.source ≠ ""
  written : Source.Written 4 program.source.toList
  short : program.input.length ≤ 4
  codes : ∀ c ∈ program.input.toList, 1 ≤ c.toNat ∧ c.toNat ≤ 20

namespace Random

open Source (Written)

theorem always_wellFormed : Always RandomProgram.WellFormed program := by
  refine (le_between 1 5).bind fun blocks some => ?_
  refine (repeated_isPiece (block_isPiece maxDepth) some).bind fun source piece => ?_
  refine (between_le (by decide)).bind fun length few => ?_
  have short : Within 4 (repeated length inputPiece) :=
    (repeated_within inputPiece_within length).imp fun _ within => by omega
  have codes :
      Always (fun input => ∀ c ∈ input.toList, 1 ≤ c.toNat ∧ c.toNat ≤ 20) (repeated length inputPiece) := by
    refine always_repeated inputPiece_codes (by simp) (fun text after first rest c member => ?_) length
    rw [String.toList_append] at member
    exact (List.mem_append.mp member).elim (first c) (rest c)
  exact (short.and codes).bind fun input ⟨short, codes⟩ => .pure ⟨piece.some, piece.written, short, codes⟩

end Random

/-- In text of core instructions all is instruction, whatever the extensions are. -/
theorem Source.Written.instructions {depth : Nat} {source : String} (written : Written depth source.toList)
    (extensions : List Extension) : Source.instructions extensions source = source.toList := by
  refine List.filter_eq_self.mpr fun c member => ?_
  simp [isInstruction, written.core c member]

/-- Whatever the state of the generator, zero included, a program is well formed and comes with its input as a
literal, past which reads give zero, and no bracket of it is dropped. -/
theorem Random.program_wellFormed (generator : Generator) :
    let program := (Random.program.run generator).1
    program.WellFormed ∧ (Sample.ofRandom program).source = program.source ∧
      (Sample.ofRandom program).options = { input? := some (.text program.input), eof? := some .zero } ∧
      ∀ extensions, pairedOnly (Source.tokens (Source.instructions extensions program.source)) =
        Source.tokens program.source.toList := by
  have formed := always_wellFormed generator
  refine ⟨formed, rfl, rfl, fun extensions => ?_⟩
  rw [formed.written.instructions]
  exact pairedOnly_of_nested (Source.balanced_tokens formed.written.paired)

end TapeScript
