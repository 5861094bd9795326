import TapeScript.Host.Collector
import TapeScript.Proofs.Compilation
import TapeScript.Proofs.Host.Console
import TapeScript.Proofs.Text.Utf8

/-! Lines that are given in advance and lines on standard input are the same to a program, and so is output
that is collected and output that is written in chunks. -/
namespace TapeScript

namespace Stdin

/-- Standard input that holds some lines, each with a line break after it. All reads succeed. -/
def ofLines (lines : List String) : Stdin where
  bytes := lines.flatMap fun line => Text.utf8 line ++ [10]

/-- A line is read up to its line break, which is read too. -/
theorem lineAfter_break (begun line rest : List UInt8) (reads : Nat) (whole : 10 ∉ line) :
    ∃ more, lineAfter begun [] reads (line ++ 10 :: rest) =
      (.ok (some (begun.reverse ++ line)), { bytes := rest, reads := more }) := by
  induction line generalizing begun reads with
  | nil => exact ⟨reads + 1, by simp [lineAfter, retry]⟩
  | cons byte line ih =>
    have other : byte ≠ 10 := fun same => whole (by simp [same])
    obtain ⟨more, found⟩ := ih (byte :: begun) (reads + 1) fun member => whole (by simp [member])
    refine ⟨more, ?_⟩
    rw [List.cons_append, lineAfter]
    simpa [retry, other] using found

end Stdin

namespace Console

theorem stdin_flush (console : Console) : console.flush.stdin = console.stdin := by
  rw [flush]
  split <;> rfl

theorem stdin_write (value : Int) (console : Console) : (console.write value).stdin = console.stdin := by
  rw [write]
  split
  · exact stdin_flush _
  · rfl

theorem stdin_debug (cells : List Int32) (position : Int) (console : Console) :
    (console.debug cells position).stdin = console.stdin := stdin_flush console

theorem readLine_stdin (console : Console) :
    console.readLine.1 = console.stdin.line.1.map (·.map Text.ofUtf8) ∧
      console.readLine.2.stdin = console.stdin.line.2 := by
  rw [← stdin_flush console]
  exact ⟨rfl, rfl⟩

/-- A collector and a console with the same lines to come that were sent the same output. -/
structure Shows (collector : Collector) (console : Console) : Prop where
  output : Keeps collector.bytes console
  whole : ∀ line ∈ collector.lines, '\n' ∉ line.toList
  bytes : console.stdin.bytes = (Stdin.ofLines collector.lines).bytes
  faults : console.stdin.faults = []

theorem shows_start {lines : List String} (whole : ∀ line ∈ lines, '\n' ∉ line.toList) :
    Shows (.ofLines lines) (ofStdin (.ofLines lines)) where
  output := keeps_start _
  whole := whole
  bytes := rfl
  faults := rfl

variable {collector : Collector} {console : Console}

theorem Shows.write (shows : Shows collector console) (value : Int) :
    Shows (collector.write value) (console.write value) where
  output := by
    have sent : (collector.write value).bytes = collector.bytes ++ (Call.write value).bytes := Array.toList_push
    rw [sent]
    exact shows.output.write value
  whole := shows.whole
  bytes := by
    rw [stdin_write]
    exact shows.bytes
  faults := by
    rw [stdin_write]
    exact shows.faults

theorem Shows.debug (shows : Shows collector console) (cells : List Int32) (position : Int) :
    Shows (collector.debug cells position) (console.debug cells position) where
  output := shows.output.flush.congr (debug_output cells position console).1 (debug_output cells position console).2
  whole := shows.whole
  bytes := by
    rw [stdin_debug]
    exact shows.bytes
  faults := by
    rw [stdin_debug]
    exact shows.faults

/-- A line given in advance is read from standard input, and the end of input is met on both. -/
theorem Shows.readLine (shows : Shows collector console) :
    Host.Answers Shows (fun _ _ => False) (Host.readLine collector) (Host.readLine console) := by
  obtain ⟨output, whole, bytes, faults⟩ := shows
  obtain ⟨result, rest⟩ := readLine_stdin console
  have kept := output.flush.congr (readLine_output console).1 (readLine_output console).2
  obtain ⟨lines, collected, dumps⟩ := collector
  change Host.Answers _ _ _ console.readLine
  generalize console.readLine = read at result rest kept
  obtain ⟨answer, after⟩ := read
  cases lines with
  | nil =>
    have line : console.stdin.line = (.ok none, { bytes := [], reads := console.stdin.reads + 1 }) := by
      simp [Stdin.line, bytes, faults, Stdin.ofLines, Stdin.lineAfter, Stdin.retry, Stdin.lastLine]
    rw [line] at result rest
    cases result
    exact .ok none ⟨kept, whole, by rw [rest]; rfl, by rw [rest]⟩
  | cons first lines =>
    have plain : 10 ∉ Text.utf8 first := fun member => whole first (by simp) (Text.break_mem_of_utf8 member)
    obtain ⟨reads, line⟩ :=
      Stdin.lineAfter_break [] (Text.utf8 first) (Stdin.ofLines lines).bytes console.stdin.reads plain
    have here : console.stdin.line =
        (.ok (some (Text.utf8 first)), { bytes := (Stdin.ofLines lines).bytes, reads }) := by
      rw [Stdin.line, bytes, faults]
      simpa [Stdin.ofLines] using line
    rw [here] at result rest
    have decoded : answer = .ok (some first) := by
      rw [← Text.ofUtf8_utf8 first]
      exact result
    cases decoded
    exact .ok (some first) ⟨kept, fun line member => whole line (by simp [member]), by rw [rest], by rw [rest]⟩

theorem correspond_collector : Host.Correspond Shows (fun (_ : Collector) (_ : Console) => False) where
  write value _ _ shows := shows.write value
  debug cells position _ _ shows := shows.debug cells position
  readLine shows := shows.readLine

end Console

/-- It does not matter to a program which of the two kinds of surroundings it runs in. If the program of a
source text without extensions ends with lines given in advance, none of which has a line break in it, then it
ends on the standard streams with those lines on standard input, each followed by a line break; tape and pointer
are the same, and after a last flush the chunks written are together the output collected. It ends in both or in
neither. -/
theorem streams_agree (collecting : Engine Collector) (streaming : Engine Console) (source : String)
    (given : CompileOptions) (lines : List String) (whole : ∀ line ∈ lines, '\n' ∉ line.toList) :
    ((given.optimize = true → source.length < UInt32.size) →
      ∃ compilation, compile source { given with extensions? := none } = .ok compilation) ∧
    ∀ compilation, compile source { given with extensions? := none } = .ok compilation →
      ∀ fuel,
        (compilation.run? collecting fuel (Collector.ofLines lines) = none ↔
          compilation.run? streaming fuel (Console.ofStdin (.ofLines lines)) = none) ∧
        ∀ outcome, compilation.run? collecting fuel (Collector.ofLines lines) = some outcome →
          ∃ collected streamed, outcome = .ended collected ∧
            compilation.run? streaming fuel (Console.ofStdin (.ofLines lines)) = some (.ended streamed) ∧
            streamed.tape = collected.tape ∧ streamed.relativePointer = collected.relativePointer ∧
            streamed.host.flush.written = collected.host.bytes := by
  constructor
  · intro short
    obtain ⟨raw, grows⟩ := Source.exists_grows [] source
    obtain ⟨compilation, compiled, _⟩ := compile_ok { given with extensions? := none } rfl grows short
    exact ⟨compilation, compiled⟩
  · intro compilation compiled fuel
    have plain : compilation.options.extensions = [] := by
      rw [options_of_compile compiled]
      rfl
    have own := Compilation.holdsStatements_of_plain plain
    have outcomes := compilation.run?_related Console.correspond_collector (.inl own) (.inl own)
      (Compilation.meaning_related plain collecting streaming) fuel (Console.shows_start whole)
    generalize compilation.run? collecting fuel (Collector.ofLines lines) = first at outcomes
    generalize compilation.run? streaming fuel (Console.ofStdin (.ofLines lines)) = second at outcomes
    cases outcomes with
    | none => exact ⟨by simp, nofun⟩
    | some outcomes =>
      refine ⟨by simp, ?_⟩
      rintro _ ⟨⟩
      cases outcomes with
      | failed states =>
        obtain ⟨impossible⟩ := states
        exact impossible.elim
      | ended states =>
        obtain ⟨shows⟩ := states
        refine ⟨_, _, rfl, rfl, rfl, rfl, ?_⟩
        rw [Console.written_flush]
        exact shows.output.all

/-- A line is asked for, and its first byte put out. -/
theorem streams_agree_echo : ∃ compilation streamed,
    compile ",." { extensions? := none, optimize? := some false } = .ok compilation ∧
      compilation.run? (.emitting 42) 3 (Console.ofStdin (.ofLines ["a", ""])) = some (.ended streamed) ∧
      streamed.host.flush.written = [97] := by
  obtain ⟨made, agree⟩ :=
    streams_agree (.emitting 42) (.emitting 42) ",." { optimize? := some false } ["a", ""] (by decide)
  obtain ⟨compilation, compiled⟩ := made nofun
  obtain ⟨parses, options⟩ := tokens_of_plain rfl compiled
  have tokens : Source.parse [] ",." = .ok [.single .input, .single .output] := rfl
  have tokens := Except.ok.inj (tokens.symm.trans parses)
  let code : Code := .token (.single .input) (.token (.single .output) .halt)
  have runs (meaning : Meaning Collector) (tape : Tape) (start : Int) (zero : tape.read? start = some 0) :
      Config.run? meaning 3 ⟨code, [], ⟨tape, start, [], .ofLines ["a", ""]⟩⟩ =
        some (.ended ⟨tape.write start 97, start, [0], ⟨[""], #[97], #[]⟩⟩) := by
    have line : Host.readLine (Collector.ofLines ["a", ""]) = (.ok (some "a"), .ofLines [""]) := rfl
    have bytes : terminated (Text.utf8 "a") = [97, 0] := by decide
    simp [Config.run?, Config.advance, Config.step, Token.perform, Token.single, Token.counted, State.input,
      State.readByte, State.put, State.output, State.emit, Tape.read, Tape.read?_write, zero, line, bytes, code]
    rfl
  have whole : compilation.run? (.emitting 42) 3 (Collector.ofLines ["a", ""]) =
      some (.ended ⟨Tape.blank.write Tape.start 97, Tape.start, [0], ⟨[""], #[97], #[]⟩⟩) := by
    rw [Compilation.run?_stepwise (.inr rfl), Compilation.start?, ← tokens, options]
    exact runs (compilation.meaning (.emitting 42)) _ _ (Tape.read?_blank Tape.covers_start)
  obtain ⟨collected, streamed, same, run, _, _, written⟩ := (agree compilation compiled 3).2 _ whole
  rw [← Outcome.ended.inj same] at written
  exact ⟨compilation, streamed, compiled, run, written⟩

end TapeScript
