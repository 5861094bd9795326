import TapeScript.Proofs.Host.Reads

/-! Lines read from standard input. Every call that reads a line is told by its single reads, whichever of them fail:
a fault that passes changes no line, the end of input is reported where it is met before any byte of a line, and the
lines are what was read. -/
namespace TapeScript

namespace Stdin

variable {stdin : Stdin}

/-- So many lines. -/
def lines : Nat → Stdin → List (Except Error (Option (List UInt8))) × Stdin
  | 0, stdin => ([], stdin)
  | count + 1, stdin => (stdin.line.1 :: (lines count stdin.line.2).1, (lines count stdin.line.2).2)

theorem lines_fetched (count : Nat) (mild : ∀ code, some code ∈ stdin.faults → code = transient ∨ code = endFault) :
    ∃ fetches : List Fetch, (∀ fetch ∈ fetches, fetch.Holds) ∧
      Receives stdin (fetches.flatMap Fetch.all) (stdin.lines count).2 ∧
      (stdin.lines count).1 = fetches.map fun fetch => .ok fetch.line? := by
  induction count generalizing stdin with
  | zero => exact ⟨[], by simp, .nil stdin, rfl⟩
  | succ count ih =>
    obtain ⟨fetch, holds, receives, line⟩ := line_fetched mild
    obtain ⟨fetches, hold, rest, others⟩ := ih fun code member => mild code (receives.faults_suffix.subset member)
    exact ⟨fetch :: fetches, List.forall_mem_cons.mpr ⟨holds, hold⟩, receives.append rest,
      by simp [lines, line, others]⟩

theorem taken_restored {fetches : List Fetch} (hold : ∀ fetch ∈ fetches, fetch.Holds) :
    fetches.flatMap Fetch.restored = taken (fetches.flatMap Fetch.all) := by
  rw [taken, List.flatMap_assoc, List.flatMap_def, List.flatMap_def]
  exact congrArg List.flatten (List.map_congr_left fun fetch member => (hold fetch member).restored_eq)

/-- The lines of some bytes: what stands between line breaks, but for an empty piece behind the last. -/
def inputLines (bytes : List UInt8) : List (List UInt8) :=
  let pieces := bytes.splitOn 10
  if pieces.getLast? = some [] then pieces.dropLast else pieces

theorem inputLines_break {line : List UInt8} (whole : 10 ∉ line) (rest : List UInt8) :
    inputLines (line ++ 10 :: rest) = line :: inputLines rest := by
  have single : line.splitOnP (· == 10) = [line] :=
    List.splitOnP_eq_singleton fun byte member => beq_eq_false_iff_ne.mpr fun same => whole (same ▸ member)
  have pieces : (line ++ 10 :: rest).splitOn 10 = line :: rest.splitOn 10 := by
    rw [List.splitOn_eq_splitOnP, List.splitOnP_append_cons line rest (by simp), single]
    rfl
  obtain ⟨first, others, found⟩ := List.exists_cons_of_ne_nil (List.splitOn_ne_nil (10 : UInt8) rest)
  simp only [inputLines, pieces, found]
  split <;> simp_all

theorem inputLines_last {line : List UInt8} (whole : 10 ∉ line) :
    inputLines line = if line = [] then [] else [line] := by
  have single : line.splitOnP (· == 10) = [line] :=
    List.splitOnP_eq_singleton fun byte member => beq_eq_false_iff_ne.mpr fun same => whole (same ▸ member)
  simp [inputLines, List.splitOn_eq_splitOnP, single]

/-- A line is the first of those that are left, if no read fails for good and none reports the end. -/
theorem line_first (quiet : ∀ code, some code ∈ stdin.faults → code = transient) :
    stdin.line.1 = .ok (inputLines stdin.bytes)[0]? ∧ inputLines stdin.line.2.bytes = (inputLines stdin.bytes).tail ∧
      ∀ code, some code ∈ stdin.line.2.faults → code = transient := by
  obtain ⟨fetch, ⟨within, ended, line, none_iff⟩, receives, ends⟩ :=
    line_fetched fun code member => .inl (quiet code member)
  have bytes := receives.bytes_eq
  have whole : 10 ∉ taken fetch.receipts := by
    intro member
    obtain ⟨receipt, inside, gives⟩ := List.mem_flatMap.mp member
    rcases within receipt inside with rfl | ⟨value, other, rfl⟩
    · simp [Receipt.bytes] at gives
    · exact other (by simpa [Receipt.bytes, eq_comm] using gives)
  suffices first : fetch.line? = (inputLines stdin.bytes)[0]? ∧
      inputLines stdin.line.2.bytes = (inputLines stdin.bytes).tail from
    ⟨by rw [ends, first.1], first.2, fun code member => quiet code (receives.faults_suffix.subset member)⟩
  rw [Fetch.all, taken_append] at bytes
  obtain ⟨receipts, last, line?⟩ := fetch
  rcases ended with rfl | rfl | rfl
  · have found : line? = some (taken receipts) := by
      cases line? with
      | none => simp [Receipt.IsEnd] at none_iff
      | some found => rw [line found rfl]
    have left : stdin.bytes = taken receipts ++ 10 :: stdin.line.2.bytes := by rw [bytes, List.append_assoc]; rfl
    rw [left, inputLines_break whole]
    exact ⟨found, rfl⟩
  · have left : stdin.line.2.bytes = [] := receives.nothing_left
    have all : stdin.bytes = taken receipts := by simp [bytes, left, taken, Receipt.bytes]
    rw [left, all, inputLines_last whole, inputLines_last (by simp)]
    by_cases empty : taken receipts = []
    · have found : line? = none := none_iff.mpr ⟨.inl rfl, empty⟩
      simp [found, empty]
    · cases line? with
      | none => exact absurd (none_iff.mp rfl).2 empty
      | some found => simp [line found rfl, empty]
  · have member : some endFault ∈ stdin.faults := receives.mem_faults (by simp [Fetch.all])
    exact absurd (quiet endFault member) (by decide)

/-- Without faults for good and without an end reported early the lines are those of the input, then none. -/
theorem lines_eq (count : Nat) (quiet : ∀ code, some code ∈ stdin.faults → code = transient) :
    (stdin.lines count).1 = (List.range count).map fun index => .ok (inputLines stdin.bytes)[index]? := by
  induction count generalizing stdin with
  | zero => rfl
  | succ count ih =>
    obtain ⟨line, rest, quietRest⟩ := line_first quiet
    rw [lines, line, ih quietRest, rest, List.range_succ_eq_map, List.map_cons, List.map_map]
    simp [Function.comp_def]

/-- Standard input whose reads do not fail for a moment only. -/
def undisturbed (stdin : Stdin) : Stdin := { stdin with faults := stdin.faults.filter (· != some transient) }

/-- The same input, with and without the faults that pass. -/
structure Calms (stdin calm : Stdin) : Prop where
  bytes : calm.bytes = stdin.bytes
  faults : calm.faults = stdin.undisturbed.faults

theorem retry_filter (faults : List (Option String)) :
    retry (faults.filter (· != some transient)) =
      ((retry faults).1, (retry faults).2.1.filter (· != some transient), 1) := by
  induction faults with
  | nil => rfl
  | cons fault? faults ih =>
    cases fault? with
    | none => simp [retry]
    | some code =>
      by_cases passes : code = transient
      · simpa [retry, passes] using ih
      · simp [retry, passes]

namespace Calms

variable {calm : Stdin}

theorem retried (calms : Calms stdin calm) :
    calm.retried.1 = stdin.retried.1 ∧ Calms stdin.retried.2 calm.retried.2 := by
  obtain ⟨bytes, faults, reads⟩ := stdin
  obtain ⟨bytesCalm, faultsCalm, more⟩ := calm
  obtain ⟨sameBytes, sameFaults⟩ := calms
  cases sameBytes
  cases sameFaults
  simp only [Stdin.retried, retry_filter]
  cases (retry faults).1 with
  | some code => exact ⟨rfl, rfl, rfl⟩
  | none => cases bytes <;> exact ⟨rfl, rfl, rfl⟩

theorem lineAfter_eq {stdin calm : Stdin} (calms : Calms stdin calm) (begun : List UInt8) :
    (lineAfter begun calm.faults calm.reads calm.bytes).1 = (lineAfter begun stdin.faults stdin.reads stdin.bytes).1 ∧
      Calms (lineAfter begun stdin.faults stdin.reads stdin.bytes).2
        (lineAfter begun calm.faults calm.reads calm.bytes).2 := by
  have bytes := stdin.retried_bytes
  rw [Stdin.lineAfter_eq begun calm, Stdin.lineAfter_eq begun stdin]
  obtain ⟨same, after⟩ := calms.retried
  generalize stdin.retried = found at bytes same after
  generalize calm.retried = calmed at same after
  obtain ⟨receipt, rest⟩ := found
  obtain ⟨_, restCalm⟩ := calmed
  cases same
  cases receipt with
  | fault | nothing => exact ⟨rfl, after⟩
  | byte value =>
    dsimp only
    split
    · exact ⟨rfl, after⟩
    · exact lineAfter_eq after (value :: begun)
termination_by stdin.bytes.length
decreasing_by
  rw [bytes]
  exact Nat.lt_succ_self _

theorem line_eq (calms : Calms stdin calm) : calm.line.1 = stdin.line.1 ∧ Calms stdin.line.2 calm.line.2 :=
  calms.lineAfter_eq []

theorem lines_eq (calms : Calms stdin calm) (count : Nat) : (calm.lines count).1 = (stdin.lines count).1 := by
  induction count generalizing stdin calm with
  | zero => rfl
  | succ count ih =>
    obtain ⟨line, rest⟩ := calms.line_eq
    rw [lines, lines, ih rest, line]

end Calms

end Stdin

namespace Console

/-- What the calls give that read a line. -/
def linesRead : List Call → Console → List (Except Error (Option String))
  | [], _ => []
  | call :: calls, console =>
    let rest := linesRead calls (call.perform console).2
    if call = .readLine then (call.perform console).1 :: rest else rest

variable {console : Console}

/-- Only calls that read a line touch standard input. -/
theorem stdin_perform {call : Call} (other : call ≠ .readLine) (console : Console) :
    (call.perform console).2.stdin = console.stdin := by
  cases call with
  | write value => exact stdin_write value console
  | debug cells position => exact stdin_debug cells position console
  | flush => exact stdin_flush console
  | readLine => exact absurd rfl other

theorem linesRead_eq (calls : List Call) (console : Console) :
    linesRead calls console =
        (console.stdin.lines (calls.count .readLine)).1.map (·.map (·.map Text.ofUtf8)) ∧
      (performAll calls console).stdin = (console.stdin.lines (calls.count .readLine)).2 := by
  induction calls generalizing console with
  | nil => exact ⟨rfl, rfl⟩
  | cons call calls ih =>
    obtain ⟨found, left⟩ := ih (call.perform console).2
    by_cases reads : call = .readLine
    · subst reads
      obtain ⟨line, rest⟩ := readLine_stdin console
      have rest : (Call.readLine.perform console).2.stdin = console.stdin.line.2 := rest
      rw [rest] at found left
      rw [List.count_cons_self, Stdin.lines, linesRead, if_pos rfl, found]
      exact ⟨congrArg (· :: _) line, left⟩
    · rw [stdin_perform reads] at found left
      rw [List.count_cons_of_ne reads, linesRead, if_neg reads]
      exact ⟨found, left⟩

/-- Standard input after some calls has no other faults to come. -/
theorem faults_performAll {stdin : Stdin} {code : String} (calls : List Call)
    (mild : ∀ code, some code ∈ stdin.faults → code = "EAGAIN" ∨ code = "EOF")
    (member : some code ∈ (performAll calls (ofStdin stdin)).stdin.faults) : code = "EAGAIN" ∨ code = "EOF" := by
  obtain ⟨_, _, receives, _⟩ := Stdin.lines_fetched (calls.count .readLine) mild
  rw [(linesRead_eq calls (ofStdin stdin)).2] at member
  exact mild code (receives.faults_suffix.subset member)

/-- Every call returns if no read fails but for a moment or at the end of input. -/
theorem perform_ok (call : Call) (mild : ∀ code, some code ∈ console.stdin.faults → code = "EAGAIN" ∨ code = "EOF") :
    ∃ answer, (call.perform console).1 = .ok answer := by
  cases call with
  | write | debug | flush => exact ⟨none, rfl⟩
  | readLine =>
    obtain ⟨fetch, _, _, line⟩ := Stdin.line_fetched mild
    exact ⟨fetch.line?.map Text.ofUtf8, by rw [Call.perform, (readLine_stdin console).1, line]; rfl⟩

/-- Lines come from standard input in full and in order, whichever calls are made between. The faults after which a
read is tried again change nothing. If there are no others but such as report the end of input, every call returns;
a line is what was read up to a line break or to the end of input, there is none just if the end was met before any
byte, and the lines, each with the line break that ended it, are together what was read. If no fault reports the end,
the lines are those of the input, and there is none from then on. -/
theorem lines_delivered (stdin : Stdin) (calls : List Call) :
    linesRead calls (ofStdin stdin.undisturbed) = linesRead calls (ofStdin stdin) ∧
    ((∀ code, some code ∈ stdin.faults → code = "EAGAIN" ∨ code = "EOF") →
      (∀ front call back, calls = front ++ call :: back →
        ∃ answer, (call.perform (performAll front (ofStdin stdin))).1 = .ok answer) ∧
      ∃ fetches : List Stdin.Fetch,
        linesRead calls (ofStdin stdin) = (fetches.map fun fetch => .ok (fetch.line?.map Text.ofUtf8)) ∧
        (∀ fetch ∈ fetches, fetch.Holds) ∧
        stdin.Receives (fetches.flatMap (·.all)) (performAll calls (ofStdin stdin)).stdin ∧
        stdin.bytes = fetches.flatMap (·.restored) ++ (performAll calls (ofStdin stdin)).stdin.bytes) ∧
    ((∀ code, some code ∈ stdin.faults → code = "EAGAIN") →
      linesRead calls (ofStdin stdin) = (List.range (calls.count .readLine)).map fun index =>
        .ok ((Stdin.inputLines stdin.bytes)[index]?.map Text.ofUtf8)) := by
  obtain ⟨read, left⟩ := linesRead_eq calls (ofStdin stdin)
  refine ⟨?_, fun mild => ⟨?_, ?_⟩, fun quiet => ?_⟩
  · have calms : Stdin.Calms stdin stdin.undisturbed := ⟨rfl, rfl⟩
    rw [read, (linesRead_eq calls (ofStdin stdin.undisturbed)).1]
    exact congrArg _ (calms.lines_eq _)
  · intro front call back _
    exact perform_ok call fun code => faults_performAll front mild
  · obtain ⟨fetches, hold, receives, lines⟩ := Stdin.lines_fetched (calls.count .readLine) mild
    refine ⟨fetches, ?_, hold, ?_, ?_⟩
    · rw [read, ofStdin, lines, List.map_map]
      rfl
    · rw [left]
      exact receives
    · rw [left, Stdin.taken_restored hold]
      exact receives.bytes_eq
  · rw [read, ofStdin, Stdin.lines_eq _ quiet, List.map_map]
    rfl

/-- A line that is cut by an end reported early, and one that is not. -/
theorem lines_delivered_cut :
    (∃ fetches : List Stdin.Fetch, [.ok none, .ok (some "a"), .ok (some "b"), .ok (some "c"), .ok none] =
        (fetches.map fun fetch => (.ok (fetch.line?.map Text.ofUtf8) : Except Error (Option String))) ∧
      (∀ fetch ∈ fetches, fetch.Holds) ∧ [97, 98, 10, 99] = fetches.flatMap (·.restored)) ∧
    linesRead [.readLine, .write 65, .readLine, .readLine]
        (ofStdin { bytes := [97, 98, 10, 99], faults := [some "EAGAIN", none, some "EAGAIN"] }) =
      [.ok (some "ab"), .ok (some "c"), .ok none] := by
  constructor
  · let stdin : Stdin := { bytes := [97, 98, 10, 99], faults := [some "EAGAIN", some "EOF", none, some "EOF"] }
    let calls : List Call := [.readLine, .readLine, .flush, .readLine, .readLine, .readLine]
    obtain ⟨_, fetches, lines, hold, _, bytes⟩ := (lines_delivered stdin calls).2.1 (by simp [stdin])
    have left : (performAll calls (ofStdin stdin)).stdin.bytes = [] := rfl
    rw [left, List.append_nil] at bytes
    exact ⟨fetches, lines, hold, bytes⟩
  · exact (lines_delivered _ _).2.2 (by simp)

end Console
end TapeScript
