import TapeScript.Proofs.Interpreter.Run

/-! How far a run gets. An instruction moves the pointer by one cell at most, so a run of few
instructions does not leave the tape. -/
namespace TapeScript.Interpreter

variable {ρ : Type} {program : Program} {eof : EndOfInput}

namespace Config

/-- The tape has its full size, and the pointer is no further from its start than so many cells. -/
structure Near (distance : Nat) (state : State ρ) : Prop where
  size : state.tape.size = Tape.fullSize
  left : Tape.start ≤ state.pointer + distance
  right : state.pointer ≤ Tape.start + distance

theorem near_start (literal? : Option Literal) (host : ρ) : Near 0 (State.start literal? host) where
  size := Tape.size_blank
  left := by simp [State.start]
  right := by simp [State.start]

variable {distance : Nat} {state : State ρ}

private theorem Near.same {next : State ρ} (near : Near distance state) (size : next.tape.size = state.tape.size)
    (pointer : next.pointer = state.pointer) : Near (distance + 1) next := by
  obtain ⟨full, left, right⟩ := near
  exact ⟨size.trans full, by omega, by omega⟩

private theorem Near.move (near : Near distance state) {shift : Int} (unit : shift = 1 ∨ shift = -1) :
    Near (distance + 1) (state.move shift) := by
  obtain ⟨full, left, right⟩ := near
  have pointer : (state.move shift).pointer = state.pointer + shift := rfl
  exact ⟨full, by omega, by omega⟩

variable [Host ρ]

theorem readByte_tape (state : State ρ) :
    state.readByte.2.tape = state.tape ∧ state.readByte.2.pointer = state.pointer := by
  obtain ⟨tape, pointer, pending, host⟩ := state
  cases pending with
  | cons byte pending => exact ⟨rfl, rfl⟩
  | nil =>
    simp only [State.readByte]
    split
    · exact ⟨rfl, rfl⟩
    · exact ⟨rfl, rfl⟩
    · split <;> exact ⟨rfl, rfl⟩

private theorem Near.input {next : State ρ} (near : Near distance state) (reads : state.input eof = .next next) :
    Near (distance + 1) next := by
  obtain ⟨tape, pointer⟩ := readByte_tape state
  simp only [State.input] at reads
  cases read : state.readByte with
  | mk result after =>
    rw [read] at reads tape pointer
    apply near.same
    all_goals
      match result, reads with
      | .ok (some byte), reads =>
        cases reads
        simp [State.put, ← tape, ← pointer]
      | .ok none, reads => cases eof <;> cases reads <;> simp [State.put, ← tape, ← pointer]

/-- One instruction more, one cell further at most. -/
theorem Near.step {config next : Config ρ} (near : Near distance config.state)
    (step : config.step program eof = .inl next) :
    Near (distance + 1) next.state := by
  obtain ⟨position, steps, state⟩ := config
  simp only [Config.step] at step
  split at step
  case h_9 =>
    split at step
    · rename_i read
      cases step
      exact near.input read
    all_goals cases step
  all_goals cases step
  case h_4 | h_5 => exact near.move (by simp)
  all_goals exact near.same (by simp [State.add, State.output, State.emit]) rfl

theorem Near.advance {config next : Config ρ} {count : Nat} (near : Near distance config.state)
    (reaches : config.advance program eof count = .inl next) : Near (distance + count) next.state := by
  induction count generalizing config distance with
  | zero =>
    cases reaches
    exact near
  | succ count ih =>
    cases step : config.step program eof with
    | inl middle =>
      rw [advance_step step] at reaches
      rw [Nat.add_comm count, ← Nat.add_assoc]
      exact ih (near.step step) reaches
    | inr final => simp [Config.advance, step] at reaches

end Config

variable [Host ρ]

/-- The pointer is inside the tape each time the run comes to the beginning of a loop that optimization
reduces. -/
def ReducesInside (program : Program) (eof : EndOfInput) (start : State ρ) : Prop :=
  ∀ count config, Config.advance program eof count ⟨0, 0, start⟩ = .inl config →
    program.code[config.position]? = some .loopOpen → program.reducesAt config.position = true →
      0 ≤ config.state.pointer ∧ config.state.pointer < Tape.fullSize

/-- A run that ends within a limit comes to its instructions before. -/
theorem before_limit {limit count : Nat} {start : State ρ} {config : Config ρ} {instruction : Instruction}
    (inside : (runWithin program eof limit start).status ≠ .limit)
    (reaches : Config.advance program eof count ⟨0, 0, start⟩ = .inl config)
    (here : program.code[config.position]? = some instruction) : count < limit := by
  have position : config.position < program.code.size := (Array.getElem?_eq_some_iff.mp here).1
  rcases Nat.lt_trichotomy count limit with below | rfl | above
  · exact below
  · simp [runWithin, reaches, position] at inside
  · obtain ⟨more, rfl⟩ := Nat.exists_eq_add_of_le above
    rw [Config.advance_mono (advance_of_runWithin inside) more] at reaches
    cases reaches

/-- A run that ends within as many instructions as there are cells before the start does not leave the
tape before it ends. -/
theorem reducesInside_of_short {limit : Nat} {literal? : Option Literal} {host : ρ}
    (inside : (runWithin program eof limit (.start literal? host)).status ≠ .limit) (short : limit ≤ Tape.start) :
    ReducesInside program eof (.start literal? host) := by
  intro count config reaches opening _
  have before : count < limit := before_limit inside reaches opening
  obtain ⟨_, left, right⟩ := (Config.near_start literal? host).advance reaches
  have full : Tape.fullSize = Tape.start + Tape.start := rfl
  omega

/-- On the tree: the guard of optimized programs lets in every loop. -/
theorem ReducesInside.allowed {literal? : Option Literal} {host : ρ}
    (inside : ReducesInside program eof (.start literal? host)) :
    Config.Allowed (fun body state => body.idiom? = none → Code.StartsInside body.idiomize state) program eof
      ⟨0, 0, .start literal? host⟩ := by
  rintro position state ⟨count, steps, reaches⟩ close body opening partner closing spans notIdiom reduced
  have reduces : program.reducesAt position = true := by
    rw [reducesAt_eq opening partner spans closing, notIdiom, reduced]
    rfl
  obtain ⟨first, last⟩ := inside count _ reaches opening reduces
  have near := (Config.near_start literal? host).advance reaches
  exact ⟨first, by rw [near.size]; exact last⟩

end TapeScript.Interpreter
