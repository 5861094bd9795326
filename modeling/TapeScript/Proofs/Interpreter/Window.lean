import TapeScript.Host.Collector
import TapeScript.Proofs.Interpreter.Run

/-! Runs that use few cells. Such a run can be followed on a tape of just those cells, and ends on the
whole tape as it does there. -/
namespace TapeScript.Interpreter

/-- Hand a number on, once it is evaluated. -/
private def evaluated {α : Type} (n : Nat) (next : Nat → α) : α :=
  match n with
  | 0 => next 0
  | n + 1 => next (n + 1)

private theorem evaluated_eq {α : Type} (n : Nat) (next : Nat → α) : evaluated n next = next n := by
  cases n <;> rfl

/-- Whether a run ends within so many instructions while it neither leaves its tape nor asks for a line.
Positions are evaluated at once, as they would grow into long sums otherwise. -/
def endsInside (program : Program) : Nat → Config Collector → Bool
  | 0, _ => false
  | fuel + 1, ⟨position, steps, state⟩ =>
    evaluated position fun position =>
      decide (state.tape.Covers state.pointer) &&
        (program.code[position]? != some .input || !state.pending.isEmpty) &&
        match Config.step program .halt ⟨position, steps, state⟩ with
        | .inl next => endsInside program fuel next
        | .inr _ => true

variable {ρ σ : Type} {offset : Int} {small : State σ} {whole : State ρ}

/-- A state seen through a window: the cells inside are the same, and so is the input to come next. -/
structure Window (offset : Int) (small : State σ) (whole : State ρ) : Prop where
  pointer : whole.pointer = small.pointer + offset
  cells : ∀ position, small.tape.Covers position → whole.tape.read? (position + offset) = small.tape.read? position
  pending : ∃ more, whole.pending = small.pending ++ more

namespace Window

theorem isSet (window : Window offset small whole) (inside : small.tape.Covers small.pointer) :
    whole.isSet = small.isSet := by
  rw [State.isSet, State.isSet, Tape.isSet, Tape.isSet, Tape.read, Tape.read, window.pointer, window.cells _ inside]

theorem add (window : Window offset small whole) (delta : Int32) :
    Window offset (small.add 0 delta) (whole.add 0 delta) where
  pointer := window.pointer
  cells position inside := by
    have covers : small.tape.Covers position := by simpa [State.add, Tape.Covers] using inside
    simp [State.add, window.pointer, window.cells position covers]
  pending := window.pending

theorem put (window : Window offset small whole) (value : Int32) :
    Window offset (small.put 0 value) (whole.put 0 value) where
  pointer := window.pointer
  cells position inside := by
    have covers : small.tape.Covers position := by simpa [State.put, Tape.Covers] using inside
    simp [State.put, window.pointer, window.cells position covers]
  pending := window.pending

theorem move (window : Window offset small whole) (distance : Int) :
    Window offset (small.move distance) (whole.move distance) where
  pointer := by
    have pointer := window.pointer
    show whole.pointer + distance = small.pointer + distance + offset
    omega
  cells := window.cells
  pending := window.pending

variable [Host ρ] [Host σ]

theorem output (window : Window offset small whole) : Window offset small.output whole.output :=
  ⟨window.pointer, window.cells, window.pending⟩

/-- Input that is there already is the same in the window; the end of input is not come to. -/
theorem input (window : Window offset small whole) (waiting : small.pending ≠ []) (eof other : EndOfInput) :
    ∃ next nextWhole, small.input other = .next next ∧ whole.input eof = .next nextWhole ∧
      Window offset next nextWhole := by
  obtain ⟨pointer, cells, more, pending⟩ := window
  obtain ⟨tape, place, bytes, host⟩ := small
  obtain ⟨tapeWhole, placeWhole, bytesWhole, hostWhole⟩ := whole
  cases bytes with
  | nil => exact absurd rfl waiting
  | cons byte bytes =>
    cases pending
    have read : Window offset (⟨tape, place, bytes, host⟩ : State σ)
        (⟨tapeWhole, placeWhole, bytes ++ more, hostWhole⟩ : State ρ) := ⟨pointer, cells, more, rfl⟩
    exact ⟨_, _, rfl, rfl, read.put _⟩

theorem step {program : Program} (window : Window offset small whole) (eof : EndOfInput) {position steps : Nat}
    (inside : small.tape.Covers small.pointer)
    (waiting : program.code[position]? = some .input → small.pending ≠ []) :
    (∃ place stepped next nextWhole, Config.step program .halt ⟨position, steps, small⟩ = .inl ⟨place, stepped, next⟩ ∧
      Config.step program eof ⟨position, steps, whole⟩ = .inl ⟨place, stepped, nextWhole⟩ ∧
      Window offset next nextWhole) ∨
    ∃ final, Config.step program eof ⟨position, steps, whole⟩ = .inr final := by
  have set := window.isSet inside
  cases here : program.code[position]? with
  | none => exact .inr ⟨⟨.done, steps, whole⟩, by simp [Config.step, here]⟩
  | some instruction =>
    refine .inl ?_
    cases instruction with
    | inc =>
      exact ⟨position + 1, steps + 1, _, _, by simp [Config.step, here], by simp [Config.step, here], window.add 1⟩
    | dec =>
      exact ⟨position + 1, steps + 1, _, _, by simp [Config.step, here], by simp [Config.step, here], window.add (-1)⟩
    | right =>
      exact ⟨position + 1, steps + 1, _, _, by simp [Config.step, here], by simp [Config.step, here], window.move 1⟩
    | left =>
      exact ⟨position + 1, steps + 1, _, _, by simp [Config.step, here], by simp [Config.step, here], window.move (-1)⟩
    | output =>
      exact ⟨position + 1, steps + 1, _, _, by simp [Config.step, here], by simp [Config.step, here], window.output⟩
    | loopOpen =>
      exact ⟨program.jump position (!small.isSet), steps + 1, small, whole, by simp [Config.step, here],
        by simp [Config.step, here, set], window⟩
    | loopClose =>
      exact ⟨program.jump position small.isSet, steps + 1, small, whole, by simp [Config.step, here],
        by simp [Config.step, here, set], window⟩
    | input =>
      obtain ⟨next, nextWhole, reads, readsWhole, after⟩ := window.input (waiting here) eof .halt
      exact ⟨position + 1, steps + 1, next, nextWhole, by simp [Config.step, here, reads],
        by simp [Config.step, here, readsWhole], after⟩

end Window

/-- A run that ends in the window ends on the whole tape, whatever happens at the end of input. -/
theorem ends_of_window [Host ρ] {program : Program} {small : State Collector} {whole : State ρ}
    {fuel position steps : Nat}
    (ends : endsInside program fuel ⟨position, steps, small⟩ = true) (window : Window offset small whole)
    (eof : EndOfInput) : ∃ final, Config.advance program eof fuel ⟨position, steps, whole⟩ = .inr final := by
  induction fuel generalizing position steps small whole with
  | zero => cases ends
  | succ fuel ih =>
    simp only [endsInside, evaluated_eq, Bool.and_eq_true, decide_eq_true_eq] at ends
    obtain ⟨⟨inside, input⟩, goes⟩ := ends
    have waiting (here : program.code[position]? = some .input) : small.pending ≠ [] := by simpa [here] using input
    rcases window.step eof inside waiting with ⟨place, stepped, next, nextWhole, step, stepWhole, after⟩ | ⟨final, last⟩
    · rw [step] at goes
      rw [Config.advance_step stepWhole]
      exact ih goes after
    · exact ⟨final, by simp [Config.advance, last]⟩

end TapeScript.Interpreter
