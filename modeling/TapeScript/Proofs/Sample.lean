import TapeScript.Proofs.Interpreter.Window
import TapeScript.Proofs.Validation
import TapeScript.Sample

/-! The interpreter ends on every sample, whatever the input and the end of input are where the sample
leaves them open. Two samples echo their input up to the first zero; the others take the same few steps
on every input. -/
namespace TapeScript

open Interpreter

namespace Echo

/-- The program that puts out its input up to the first zero. -/
def source : String := ",[.,]"

theorem code_eq : (Program.ofSource source).code = #[.input, .loopOpen, .output, .input, .loopClose] := by decide

theorem partner_eq : (Program.ofSource source).partner = #[none, some 4, none, none, some 1] := by decide

/-- The loop ends, be it that the cell is not set or that a zero is to come. -/
def Fed {ρ : Type} (state : State ρ) : Prop := state.isSet = false ∨ 0 ∈ state.pending

variable {ρ : Type}

/-- After a byte has been read from input that held a zero. -/
theorem fed_put {tape : Tape} {pointer : Int} {byte : UInt8} {pending : List UInt8} {host : ρ}
    (zero : 0 ∈ byte :: pending) : Fed ((⟨tape, pointer, pending, host⟩ : State ρ).put 0 (Int32.ofNat byte.toNat)) := by
  rcases List.mem_cons.mp zero with rfl | later
  · refine .inl ?_
    cases found : tape.read? pointer <;> simp [State.put, State.isSet, Tape.isSet, Tape.read, found]
  · exact .inr later

variable [Host ρ] {eof : EndOfInput}

private theorem step_bracket {place : Nat} (bracket : place = 1 ∨ place = 4) (steps : Nat) (state : State ρ) :
    Interpreter.Config.step (.ofSource source) eof ⟨place, steps, state⟩ =
      .inl ⟨if state.isSet then 2 else 5, steps + 1, state⟩ := by
  rcases bracket with rfl | rfl <;> cases set : state.isSet <;>
    simp [Interpreter.Config.step, code_eq, partner_eq, Program.jump, Program.partner?, set]

private theorem left_ends {place : Nat} (bracket : place = 1 ∨ place = 4) (steps : Nat) {state : State ρ}
    (unset : state.isSet = false) :
    ∃ count final, Interpreter.Config.advance (.ofSource source) eof count ⟨place, steps, state⟩ = .inr final := by
  have test := @step_bracket ρ _ eof place bracket steps state
  simp only [unset, Bool.false_eq_true, if_false] at test
  refine ⟨2, ⟨.done, steps + 1, state⟩, ?_⟩
  rw [Interpreter.Config.advance_step test]
  simp [Interpreter.Config.advance, Interpreter.Config.step, code_eq]

/-- The loop is left at the first zero at the latest. The induction is on the input there is. -/
theorem loop_ends {pending : List UInt8} {state : State ρ} {place : Nat} (bracket : place = 1 ∨ place = 4)
    (input : state.pending = pending) (fed : Fed state) (steps : Nat) :
    ∃ count final, Interpreter.Config.advance (.ofSource source) eof count ⟨place, steps, state⟩ = .inr final := by
  induction pending generalizing state place steps with
  | nil =>
    have unset : state.isSet = false := fed.resolve_right (by simp [input])
    exact left_ends bracket steps unset
  | cons byte pending ih =>
    cases set : state.isSet with
    | false => exact left_ends bracket steps set
    | true =>
      have zero : 0 ∈ byte :: pending := by
        rw [← input]
        exact fed.resolve_left (by simp [set])
      obtain ⟨tape, pointer, _, host⟩ := state
      cases input
      let shown := Host.write (tape.read pointer).toInt host
      let next := (⟨tape, pointer, pending, shown⟩ : State ρ).put 0 (Int32.ofNat byte.toNat)
      have test := @step_bracket ρ _ eof place bracket steps ⟨tape, pointer, byte :: pending, host⟩
      simp only [set, if_true] at test
      have output :
          Interpreter.Config.step (.ofSource source) eof ⟨2, steps + 1, ⟨tape, pointer, byte :: pending, host⟩⟩ =
          .inl ⟨3, steps + 2, ⟨tape, pointer, byte :: pending, shown⟩⟩ := by
        simp [Interpreter.Config.step, code_eq, State.output, State.emit, shown]
      have read : Interpreter.Config.step (.ofSource source) eof
          ⟨3, steps + 2, ⟨tape, pointer, byte :: pending, shown⟩⟩ = .inl ⟨4, steps + 3, next⟩ := by
        simp [Interpreter.Config.step, code_eq, State.input, State.readByte, next]
      obtain ⟨count, final, ends⟩ := ih (.inr rfl) (show next.pending = pending from rfl) (fed_put zero) (steps + 3)
      refine ⟨count + 3, final, ?_⟩
      rw [Interpreter.Config.advance_step test, Interpreter.Config.advance_step output,
        Interpreter.Config.advance_step read]
      exact ends

private theorem exists_byte (bytes : List UInt8) : ∃ byte rest, terminated bytes = byte :: rest ∧ 0 ∈ byte :: rest := by
  cases bytes with
  | nil => exact ⟨0, [], rfl, by simp⟩
  | cons byte bytes => exact ⟨byte, bytes ++ [0], rfl, by simp⟩

/-- Reading the first byte, from the literal or from a line. -/
private theorem input_fed {literal? : Option Literal} {lines : List String} (given : literal? ≠ none ∨ lines ≠ []) :
    ∃ next, (State.start literal? (Collector.ofLines lines)).input eof = .next next ∧ Fed next := by
  cases literal? with
  | some literal =>
    obtain ⟨byte, rest, bytes, zero⟩ := exists_byte literal.bytes
    exact ⟨_, by simp [State.start, Literal.buffer, bytes, State.input, State.readByte]; rfl, fed_put zero⟩
  | none =>
    cases lines with
    | nil => simp at given
    | cons line lines =>
      obtain ⟨byte, rest, bytes, zero⟩ := exists_byte (Text.utf8 line)
      refine ⟨_, ?_, @fed_put _ .blank Tape.start byte rest (Collector.ofLines lines) zero⟩
      simp [State.start, Literal.buffer, State.input, State.readByte, Host.readLine, Collector.ofLines,
        Collector.readLine, bytes]

/-- The run ends if there is something to read. -/
theorem ends {trial : Trial} {options : CompileOptions} (echo : trial.source = source)
    (given : options.input? ≠ none ∨ trial.lines ≠ []) : trial.Ends options := by
  obtain ⟨next, reads, fed⟩ := @input_fed options.eof _ _ given
  have first : Interpreter.Config.step (.ofSource source) options.eof
      ⟨0, 0, .start options.input? (Collector.ofLines trial.lines)⟩ = .inl ⟨1, 1, next⟩ := by
    simp [Interpreter.Config.step, code_eq, reads]
  obtain ⟨count, final, ends⟩ := loop_ends (.inl rfl) rfl fed 1
  rw [← Interpreter.Config.advance_step first] at ends
  rw [Trial.Ends, echo]
  refine ⟨count + 1, status_runWithin ends, ?_⟩
  intro _ config _ opening reduces
  have kept : (Program.ofSource source).reducesAt 1 = false := by decide
  have place : config.position = 1 := by
    rw [code_eq] at opening
    have inside : config.position < 5 := (Array.getElem?_eq_some_iff.mp opening).1
    rcases (by omega : config.position = 0 ∨ config.position = 1 ∨ config.position = 2 ∨ config.position = 3 ∨
      config.position = 4) with same | same | same | same | same <;> simp [same] at opening ⊢
  rw [place, kept] at reduces
  cases reduces

end Echo

namespace Sample

/-- A program that ends within few instructions ends as a trial with the same input. -/
theorem ends_of_endsWithin {sample : Sample} {options : CompileOptions} {fuel limit : Nat}
    (ends : sample.endsWithin? fuel (some limit) = some true) (short : limit ≤ Tape.start)
    (input : options.input? = sample.options.input?) (eof : options.eof = sample.options.eof) :
    sample.trial.Ends options := by
  have within : (runWithin (.ofSource sample.source) options.eof limit
      (.start options.input? (Collector.ofLines sample.trial.lines))).status ≠ .limit := by
    rw [input, eof]
    simpa [endsWithin?, runSource?] using ends
  exact ⟨limit, within, reducesInside_of_short within short⟩

/-- The beginning of a sample on a tape of eight cells. -/
private def small (sample : Sample) : State Collector :=
  { tape := ⟨Array.replicate 8 0⟩, pointer := 0, pending := Literal.buffer sample.options.input?, host := {} }

private theorem window_small (sample : Sample) (options : CompileOptions) (host : Collector) :
    Window Tape.start sample.small (State.start (options.override sample.options).input? host) where
  pointer := (Int.zero_add _).symm
  cells position inside := by
    obtain ⟨first, last⟩ := inside
    have last : position < 8 := last
    have covers : Tape.blank.Covers (position + Tape.start) := by
      have enough : 8 + Tape.start < Tape.fullSize := by decide
      exact Tape.covers_blank_iff.mpr (by omega)
    obtain ⟨index, rfl⟩ := Int.eq_ofNat_of_zero_le first
    have below : index < 8 := Int.ofNat_lt.mp last
    have cell : sample.small.tape.read? index = some 0 := by simp [small, Tape.read?, below]
    rw [cell]
    exact Tape.read?_blank covers
  pending := by
    cases own : sample.options.input? with
    | none => exact ⟨_, by rw [small, own]; rfl⟩
    | some literal => exact ⟨[], by simp [small, own, State.start, CompileOptions.override]⟩

private theorem samples_end : ∀ sample ∈ all, sample.source = Echo.source ∧
      (sample.options.input? ≠ none ∨ sample.trial.lines ≠ []) ∨
    endsInside (.ofSource sample.source) 1000 ⟨0, 0, sample.small⟩ = true := by
  decide +kernel

/-- Every sample ends, with its own options laid over any others. -/
theorem ends_of_mem {sample : Sample} (member : sample ∈ all) (options : CompileOptions) :
    sample.trial.Ends (options.override sample.options) := by
  rcases samples_end sample member with ⟨echo, given⟩ | ends
  · refine Echo.ends echo (given.imp_left ?_)
    intro own
    cases found : sample.options.input? with
    | none => exact absurd found own
    | some literal => simp [CompileOptions.override, found]
  · obtain ⟨final, ends⟩ := ends_of_window ends (sample.window_small options (Collector.ofLines sample.trial.lines))
      (options.override sample.options).eof
    have within := status_runWithin ends
    exact ⟨1000, within, reducesInside_of_short within (by decide)⟩

theorem plain_of_mem : ∀ sample ∈ all, sample.options.extensions? = none ∧ sample.source.length < UInt32.size := by
  decide +kernel

end Sample
end TapeScript
