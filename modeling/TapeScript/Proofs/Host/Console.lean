import TapeScript.Host.Console
import TapeScript.Proofs.Host.Correspondence

/-! Output on a console. Bytes wait in a buffer, which is emptied when it is full and before anything else
is done; none is lost, repeated or moved, whichever calls are made and whichever reads fail. -/
namespace TapeScript.Console

/-- What can be asked of a console. -/
inductive Call where
  | write (value : Int)
  | readLine
  | debug (cells : List Int32) (position : Int)
  | flush
  deriving DecidableEq, Repr

namespace Call

/-- Make a call. A line comes back, or the fault of a read; other calls give nothing. -/
def perform : Call → Console → Except Error (Option String) × Console
  | write value, console => (.ok none, console.write value)
  | readLine, console => console.readLine
  | debug cells position, console => (.ok none, console.debug cells position)
  | flush, console => (.ok none, console.flush)

/-- What a call puts out: the low eight bits of a number. -/
def bytes : Call → List UInt8
  | write value => [UInt8.ofNat (value % 256).toNat]
  | readLine | debug _ _ | flush => []

end Call

/-- Make calls one after the other. One that fails keeps none of the others from being made. -/
def performAll (calls : List Call) (console : Console) : Console :=
  calls.foldl (fun console call => (call.perform console).2) console

/-- Everything sent was written or waits in the buffer. Chunks are neither empty nor longer than the buffer,
which is never full. -/
structure Keeps (sent : List UInt8) (console : Console) : Prop where
  all : console.written ++ console.buffer.toList = sent
  chunks : ∀ chunk ∈ console.chunks, 1 ≤ chunk.length ∧ chunk.length ≤ bufferLimit
  room : console.buffer.size < bufferLimit

variable {sent : List UInt8} {console : Console}

theorem keeps_start (stdin : Stdin) : Keeps [] (ofStdin stdin) where
  all := rfl
  chunks := by simp [ofStdin]
  room := show 0 < 4096 by decide

theorem buffer_flush (console : Console) : console.flush.buffer = #[] := by
  obtain ⟨stdin, buffer, chunks, errors⟩ := console
  rw [flush]
  split
  · exact Array.isEmpty_iff.mp ‹_›
  · rfl

theorem written_flush (console : Console) : console.flush.written = console.written ++ console.buffer.toList := by
  obtain ⟨stdin, buffer, chunks, errors⟩ := console
  rw [flush]
  split
  · rename_i empty
    simp [Array.isEmpty_iff.mp empty]
  · simp [written]

/-- A full buffer may be flushed as well. -/
theorem chunks_flush (chunks : ∀ chunk ∈ console.chunks, 1 ≤ chunk.length ∧ chunk.length ≤ bufferLimit)
    (small : console.buffer.size ≤ bufferLimit) :
    ∀ chunk ∈ console.flush.chunks, 1 ≤ chunk.length ∧ chunk.length ≤ bufferLimit := by
  obtain ⟨stdin, buffer, before, errors⟩ := console
  rw [flush]
  split
  · exact chunks
  · rename_i filled
    intro chunk member
    rcases Array.mem_push.mp member with old | rfl
    · exact chunks chunk old
    · rw [Array.length_toList]
      refine ⟨?_, small⟩
      have size : buffer.size ≠ 0 := by simpa [Array.isEmpty] using filled
      omega

theorem Keeps.flush (keeps : Keeps sent console) : Keeps sent console.flush where
  all := by rw [buffer_flush, written_flush, List.append_nil, keeps.all]
  chunks := chunks_flush keeps.chunks (Nat.le_of_lt keeps.room)
  room := by
    rw [buffer_flush]
    decide

/-- Whatever is written to the buffer and to the error stream alone keeps the output. -/
theorem Keeps.congr {other : Console} (keeps : Keeps sent console) (buffer : other.buffer = console.buffer)
    (chunks : other.chunks = console.chunks) : Keeps sent other where
  all := by rw [written, chunks, buffer, ← written, keeps.all]
  chunks := by
    rw [chunks]
    exact keeps.chunks
  room := by
    rw [buffer]
    exact keeps.room

theorem Keeps.write (keeps : Keeps sent console) (value : Int) :
    Keeps (sent ++ (Call.write value).bytes) (console.write value) := by
  obtain ⟨stdin, buffer, before, errors⟩ := console
  obtain ⟨all, chunks, room⟩ := keeps
  have all : written ⟨stdin, buffer.push (UInt8.ofInt value), before, errors⟩ ++
      (buffer.push (UInt8.ofInt value)).toList = sent ++ (Call.write value).bytes := by
    rw [← all, Array.toList_push, ← List.append_assoc]
    rfl
  have size : (buffer.push (UInt8.ofInt value)).size ≤ bufferLimit := by
    rw [Array.size_push]
    exact room
  rw [Console.write]
  split
  · exact {
      all := by rw [buffer_flush, written_flush, List.append_nil, all]
      chunks := chunks_flush chunks size
      room := by rw [buffer_flush]; decide }
  · exact ⟨all, chunks, Nat.lt_of_not_le ‹_›⟩

theorem readLine_output (console : Console) :
    console.readLine.2.buffer = console.flush.buffer ∧ console.readLine.2.chunks = console.flush.chunks :=
  ⟨rfl, rfl⟩

theorem debug_output (cells : List Int32) (position : Int) (console : Console) :
    (console.debug cells position).buffer = console.flush.buffer ∧
      (console.debug cells position).chunks = console.flush.chunks := ⟨rfl, rfl⟩

/-- Every call sends what it puts out and nothing else. -/
theorem Keeps.perform (keeps : Keeps sent console) (call : Call) :
    Keeps (sent ++ call.bytes) (call.perform console).2 := by
  cases call with
  | write value => exact keeps.write value
  | readLine =>
    rw [Call.bytes, List.append_nil]
    exact keeps.flush.congr (readLine_output console).1 (readLine_output console).2
  | debug cells position =>
    rw [Call.bytes, List.append_nil]
    exact keeps.flush.congr (debug_output cells position console).1 (debug_output cells position console).2
  | flush =>
    rw [Call.bytes, List.append_nil]
    exact keeps.flush

theorem Keeps.performAll (keeps : Keeps sent console) (calls : List Call) :
    Keeps (sent ++ calls.flatMap Call.bytes) (performAll calls console) := by
  induction calls generalizing sent console with
  | nil => simpa [Console.performAll] using keeps
  | cons call calls ih =>
    rw [List.flatMap_cons, ← List.append_assoc]
    exact ih (keeps.perform call)

/-- Every call but a write leaves the buffer empty, also a read that fails. -/
theorem buffer_perform (call : Call) (console : Console) (reads : ∀ value, call ≠ .write value) :
    (call.perform console).2.buffer = #[] := by
  cases call with
  | write value => exact absurd rfl (reads value)
  | readLine => exact (readLine_output console).1.trans (buffer_flush console)
  | debug cells position => exact (debug_output cells position console).1.trans (buffer_flush console)
  | flush => exact buffer_flush console

/-- A console that was called, beside itself. -/
private def Called (start console other : Console) : Prop := console = other ∧ ∃ calls, console = performAll calls start

/-- A console at which a read has failed. -/
private def Stopped (start console other : Console) : Prop :=
  console = other ∧ ∃ calls, console = performAll (calls ++ [.readLine]) start

/-- A program sees a console through its calls. -/
private theorem correspond_calls (start : Console) : Host.Correspond (Called start) (Stopped start) where
  write value := by
    rintro _ _ ⟨rfl, calls, rfl⟩
    exact ⟨rfl, calls ++ [.write value], by simp [performAll, Call.perform, Host.write]⟩
  debug cells position := by
    rintro _ _ ⟨rfl, calls, rfl⟩
    exact ⟨rfl, calls ++ [.debug cells position], by simp [performAll, Call.perform, Host.debug]⟩
  readLine := by
    rintro _ _ ⟨rfl, calls, rfl⟩
    have after : (Host.readLine (performAll calls start)).2 = performAll (calls ++ [.readLine]) start := by
      simp [performAll, Call.perform, Host.readLine]
    generalize Host.readLine (performAll calls start) = read at after
    obtain ⟨line, last⟩ := read
    cases line with
    | ok line? => exact .ok line? ⟨rfl, _, after⟩
    | error error => exact .error error ⟨rfl, calls, after⟩

/-- Steps that do nothing to a console but make calls. One that fails has last tried to read. -/
inductive Makes (state : State Console) : Step Console → Prop where
  | next {after : State Console} (calls : List Call) (made : after.host = performAll calls state.host) :
      Makes state (.next after)
  | ended {after : State Console} (calls : List Call) (made : after.host = performAll calls state.host) :
      Makes state (.ended after)
  | failed {error : Error} {after : State Console} (calls : List Call)
      (made : after.host = performAll (calls ++ [.readLine]) state.host) : Makes state (.failed error after)

/-- An engine runs a program step by step, and what users have written does nothing to the console but make calls. -/
structure Behaves (engine : Engine Console) (compilation : Compilation) : Prop where
  stepwise : compilation.holdsStatements = false ∨ engine.isWhole compilation.script = false
  makes : ∀ extension ∈ compilation.options.extensions, extension.template ≠ Script.dump →
    ∀ state, Makes state (engine.execute extension.template state)

/-- Calls made in a step come after those made before it. -/
private theorem related_of_makes {start : Console} {state : State Console} {step : Step Console}
    (makes : Makes state step) {before : List Call} (host : state.host = performAll before start) :
    Step.Related (Called start) (Stopped start) step step := by
  have later (calls : List Call) : performAll calls state.host = performAll (before ++ calls) start := by
    rw [host, performAll, performAll, performAll, List.foldl_append]
  cases makes with
  | next calls made => exact .next ⟨rfl, before ++ calls, made.trans (later calls)⟩
  | ended calls made => exact .ended ⟨rfl, before ++ calls, made.trans (later calls)⟩
  | failed calls made =>
    refine .failed ⟨rfl, before ++ calls, made.trans ?_⟩
    rw [later, List.append_assoc]

private theorem meaning_calls {engine : Engine Console} {compilation : Compilation}
    (behaves : Behaves engine compilation) (start : Console) :
    Meaning.Related (Called start) (Stopped start) (compilation.meaning engine) (compilation.meaning engine) where
  eof := rfl
  extension symbol? _ _ states := by
    obtain ⟨rfl, before, made⟩ := states
    have makes :=
      compilation.meaning_forall Makes (fun _ => .next [] rfl) (fun _ => .next [.debug _ _] rfl) behaves.makes
    exact related_of_makes (makes symbol? _) made

/-- A console loses, repeats and moves no byte. After any calls, whatever is on standard input and whichever
reads fail, the chunks written and the bytes still in the buffer are the low bytes of all that was put out, in
order; chunks have one to 4096 bytes, and the buffer holds fewer. Everything put out is written after a call
that is no write. A program run on a console does nothing but make calls if the statements of users in it do no
more, and if it is given up it is so at a read: all that it put out before is written then. -/
theorem output_kept (stdin : Stdin) :
    (∀ calls, ((performAll calls (ofStdin stdin)).written ++ (performAll calls (ofStdin stdin)).buffer.toList =
        calls.flatMap Call.bytes) ∧
      (∀ chunk ∈ (performAll calls (ofStdin stdin)).chunks, 1 ≤ chunk.length ∧ chunk.length ≤ 4096) ∧
      (performAll calls (ofStdin stdin)).buffer.size < 4096) ∧
    (∀ calls call, (∀ value, call ≠ .write value) →
      (performAll (calls ++ [call]) (ofStdin stdin)).buffer = #[] ∧
      (performAll (calls ++ [call]) (ofStdin stdin)).written = calls.flatMap Call.bytes) ∧
    ∀ (engine : Engine Console) (compilation : Compilation), Behaves engine compilation →
      ∀ (fuel : Nat) (outcome : Outcome Console), compilation.run? engine fuel (ofStdin stdin) = some outcome →
      ∃ calls, outcome.state.host = performAll calls (ofStdin stdin) ∧
        ∀ error state, outcome = .failed error state →
          state.host.buffer = #[] ∧ state.host.written = calls.flatMap Call.bytes := by
  have keeps (calls : List Call) := (keeps_start stdin).performAll calls
  simp only [List.nil_append] at keeps
  have emptied (calls : List Call) (call : Call) (reads : ∀ value, call ≠ .write value) :
      (performAll (calls ++ [call]) (ofStdin stdin)).buffer = #[] ∧
      (performAll (calls ++ [call]) (ofStdin stdin)).written = (calls ++ [call]).flatMap Call.bytes := by
    have empty : (performAll (calls ++ [call]) (ofStdin stdin)).buffer = #[] := by
      rw [performAll, List.foldl_append]
      exact buffer_perform call _ reads
    have all := (keeps (calls ++ [call])).all
    rw [empty, List.append_nil] at all
    exact ⟨empty, all⟩
  refine ⟨fun calls => ⟨(keeps calls).all, (keeps calls).chunks, (keeps calls).room⟩, ?_, ?_⟩
  · intro calls call reads
    obtain ⟨empty, all⟩ := emptied calls call reads
    have nothing : call.bytes = [] := by
      cases call with
      | write value => exact absurd rfl (reads value)
      | readLine | debug | flush => rfl
    exact ⟨empty, by simpa [nothing] using all⟩
  · intro engine compilation behaves fuel outcome ends
    have start : Called (ofStdin stdin) (ofStdin stdin) (ofStdin stdin) := ⟨rfl, [], rfl⟩
    have outcomes := compilation.run?_related (correspond_calls (ofStdin stdin)) behaves.stepwise behaves.stepwise
      (meaning_calls behaves (ofStdin stdin)) fuel start
    rw [ends] at outcomes
    obtain ⟨outcomes⟩ := outcomes
    cases outcomes with
    | ended states =>
      obtain ⟨_, calls, made⟩ := states
      exact ⟨calls, made, nofun⟩
    | failed states =>
      obtain ⟨_, calls, made⟩ := states
      refine ⟨calls ++ [Call.readLine], made, ?_⟩
      rintro _ _ ⟨⟩
      dsimp only
      rw [made]
      exact emptied calls .readLine nofun

/-- A user puts out a byte, which waits in the buffer. -/
theorem output_kept_statement : ∃ compilation outcome calls,
    compile "!" { extensions? := some [⟨"!", "rt.write(42);"⟩], optimize? := some false } = .ok compilation ∧
      Behaves (.emitting 42) compilation ∧
      compilation.run? (.emitting 42) 2 (ofStdin { bytes := [] }) = some outcome ∧
      outcome.state.host = performAll calls (ofStdin { bytes := [] }) ∧ outcome.state.host.buffer = #[42] := by
  let given : CompileOptions := { extensions? := some [⟨"!", "rt.write(42);"⟩], optimize? := some false }
  obtain ⟨compilation, compiled, options, tokens⟩ := @exists_statement given rfl rfl
  have behaves : Behaves (.emitting 42) compilation := ⟨.inr rfl, fun _ _ _ _ => .next [.write 42] rfl⟩
  have ran := Compilation.run?_emitting given rfl options tokens (ofStdin { bytes := [] })
  obtain ⟨calls, made, _⟩ := (output_kept { bytes := [] }).2.2 (.emitting 42) compilation behaves 2 _ ran
  exact ⟨compilation, _, calls, compiled, behaves, ran, made, rfl⟩

end TapeScript.Console
