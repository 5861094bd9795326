import TapeScript.Machine.Perform

/-! Reading after writing. A tape is known by what it reads as at every position, so two ways to
change it are compared cell by cell, and the positions outside need no care of their own. -/
namespace TapeScript.Tape

/-- Whether a position is inside the tape. -/
def Covers (tape : Tape) (position : Int) : Prop := 0 ≤ position ∧ position < tape.size

instance (tape : Tape) (position : Int) : Decidable (tape.Covers position) :=
  inferInstanceAs (Decidable (_ ∧ _))

@[ext]
theorem ext_read? {tape other : Tape} (same : ∀ position, tape.read? position = other.read? position) :
    tape = other := by
  cases tape with
  | mk cells =>
    cases other with
    | mk others => exact congrArg Tape.mk (Array.ext_getElem? fun index => same (.ofNat index))

theorem read?_isSome (tape : Tape) (position : Int) :
    (tape.read? position).isSome = true ↔ tape.Covers position := by
  cases position with
  | ofNat index => simp [read?, Covers, size]
  | negSucc index => simp [read?, Covers]

@[simp]
theorem read?_write (tape : Tape) (position other : Int) (value : Int32) :
    (tape.write position value).read? other =
      if other = position then (tape.read? other).map fun _ => value else tape.read? other := by
  cases position with
  | negSucc index =>
    cases other with
    | ofNat _ => simp [write]
    | negSucc _ => simp [read?]
  | ofNat index =>
    cases other with
    | negSucc _ => simp [read?]
    | ofNat place =>
      by_cases same : place = index
      · subst place
        by_cases inside : index < tape.cells.size
        · simp [write, read?, inside]
        · simp [write, read?, inside]
      · have apart : ¬Int.ofNat place = Int.ofNat index := fun equal => same (Int.ofNat.inj equal)
        simp only [write, read?, apart, ↓reduceIte]
        exact Array.getElem?_setIfInBounds_ne fun equal => same equal.symm

@[simp]
theorem read?_modify (tape : Tape) (position other : Int) (change : Int32 → Int32) :
    (tape.modify position change).read? other =
      if other = position then (tape.read? other).map change else tape.read? other := by
  cases position with
  | negSucc index =>
    cases other with
    | ofNat _ => simp [modify]
    | negSucc _ => simp [read?]
  | ofNat index =>
    cases other with
    | negSucc _ => simp [read?]
    | ofNat place =>
      by_cases same : place = index
      · simp [modify, read?, same, Array.getElem?_modify]
      · have different : ¬index = place := fun equal => same equal.symm
        have apart : ¬Int.ofNat place = Int.ofNat index := fun equal => same (Int.ofNat.inj equal)
        simp only [modify, read?, apart, ↓reduceIte, Array.getElem?_modify, different]

@[simp]
theorem read?_add (tape : Tape) (position other : Int) (delta : Int32) :
    (tape.add position delta).read? other =
      if other = position then (tape.read? other).map (· + delta) else tape.read? other :=
  tape.read?_modify position other _

@[simp]
theorem size_write (tape : Tape) (position : Int) (value : Int32) :
    (tape.write position value).size = tape.size := by
  cases position <;> simp [write, size]

@[simp]
theorem size_modify (tape : Tape) (position : Int) (change : Int32 → Int32) :
    (tape.modify position change).size = tape.size := by
  cases position <;> simp [modify, size]

@[simp]
theorem size_add (tape : Tape) (position : Int) (delta : Int32) :
    (tape.add position delta).size = tape.size := tape.size_modify position _

theorem add_add (tape : Tape) (position : Int) (first second : Int32) :
    (tape.add position first).add position second = tape.add position (first + second) := by
  ext1 other
  by_cases same : other = position
  · subst other
    cases found : tape.read? position <;> simp [found, Int32.add_assoc]
  · simp [same]

@[simp]
theorem add_zero (tape : Tape) (position : Int) : tape.add position 0 = tape := by
  ext1 other
  by_cases same : other = position
  · subst other
    cases found : tape.read? position <;> simp [found]
  · simp [same]

theorem write_add (tape : Tape) (position : Int) (delta value : Int32) :
    (tape.add position delta).write position value = tape.write position value := by
  ext1 other
  by_cases same : other = position
  · subst other
    cases found : tape.read? position <;> simp [found]
  · simp [same]

/-- Writing what a cell holds already changes nothing; neither does writing outside. -/
theorem write_read (tape : Tape) (position : Int) : tape.write position (tape.read position) = tape := by
  ext1 other
  by_cases same : other = position
  · subst other
    cases found : tape.read? position <;> simp [found, read]
  · simp [same]

theorem covers_of_isSet {tape : Tape} {position : Int} (set : tape.isSet position = true) :
    tape.Covers position := by
  rw [← read?_isSome]
  cases found : tape.read? position with
  | none => simp [isSet, read, found] at set
  | some value => rfl

theorem size_blank : blank.size = fullSize := by simp [blank, size]

/-- A position of the blank tape reads as zero, whether it is inside or not. -/
theorem read_blank (position : Int) : blank.read position = 0 := by
  cases position with
  | negSucc _ => rfl
  | ofNat index =>
    by_cases inside : index < fullSize
    · simp [read, read?, blank, inside]
    · simp [read, read?, blank, inside]

theorem read?_blank {position : Int} (covers : blank.Covers position) : blank.read? position = some 0 := by
  obtain ⟨value, found⟩ := Option.isSome_iff_exists.mp ((read?_isSome ..).mpr covers)
  have zero := read_blank position
  rw [read, found, Option.getD_some] at zero
  rw [found, zero]

theorem covers_blank_iff {position : Int} : blank.Covers position ↔ 0 ≤ position ∧ position < fullSize := by
  rw [Covers, size_blank]

theorem covers_start : blank.Covers start := covers_blank_iff.mpr (by decide)

/-- What a walk meets: the cells before its end are set. -/
theorem seek_stops {tape : Tape} {step : Int} {limit distance : Nat} {position : Int}
    (path : ∀ k < distance, tape.isSet (position + k * step) = true)
    (last : tape.isSet (position + distance * step) = false) (enough : distance ≤ limit) :
    tape.seek step limit position = position + distance * step := by
  induction limit generalizing distance position with
  | zero =>
    have none : distance = 0 := by omega
    simp [seek, none]
  | succ limit ih =>
    cases distance with
    | zero =>
      have here : tape.isSet position = false := by simpa using last
      simp [seek, here]
    | succ distance =>
      have here : tape.isSet position = true := by simpa using path 0 (by omega)
      have ahead (k : Nat) : position + step + k * step = position + (k + 1 : Nat) * step := by
        rw [Int.natCast_add, Int.add_mul]
        omega
      have nearer : ∀ k < distance, tape.isSet (position + step + k * step) = true := by
        intro k below
        rw [ahead]
        exact path (k + 1) (by omega)
      rw [seek, here, if_pos rfl, ih nearer (by rw [ahead]; exact last) (by omega)]
      exact ahead distance

end TapeScript.Tape
