import TapeScript.Proofs.Host.Streams

/-! Single reads of standard input, and how a line is made of them. Each gives a byte, nothing or a fault; whichever
fail, no byte is lost and none is read twice. -/
namespace TapeScript

namespace Stdin

/-- What a single read gives: a byte, nothing at the end of input, or a fault, which takes nothing. -/
inductive Receipt where
  | byte (value : UInt8)
  | nothing
  | fault (code : String)
  deriving DecidableEq, Repr

namespace Receipt

def bytes : Receipt → List UInt8
  | .byte value => [value]
  | .nothing | .fault _ => []

/-- The end of input, in either of the two ways to see it. -/
def IsEnd (receipt : Receipt) : Prop := receipt = nothing ∨ receipt = fault endFault

end Receipt

/-- The bytes that some reads gave. -/
def taken (receipts : List Receipt) : List UInt8 := receipts.flatMap Receipt.bytes

/-- What a read gives that fails as told, or does not. -/
def receive (fault? : Option String) (stdin : Stdin) : Receipt × Stdin :=
  match fault? with
  | some code => (.fault code, stdin)
  | none =>
    match stdin.bytes with
    | [] => (.nothing, stdin)
    | byte :: bytes => (.byte byte, { stdin with bytes })

/-- A single read. -/
def read (stdin : Stdin) : Receipt × Stdin :=
  receive stdin.faults.head?.join { stdin with faults := stdin.faults.tail, reads := stdin.reads + 1 }

/-- Reads one after the other, what they give, and what is left then. -/
inductive Receives : Stdin → List Receipt → Stdin → Prop where
  | nil (stdin : Stdin) : Receives stdin [] stdin
  | cons {stdin after : Stdin} {receipts : List Receipt} (rest : Receives stdin.read.2 receipts after) :
      Receives stdin (stdin.read.1 :: receipts) after

variable {stdin middle after : Stdin} {receipts others : List Receipt} {bytes begun : List UInt8}
  {faults : List (Option String)} {code : String}

theorem taken_cons (receipt : Receipt) (receipts : List Receipt) :
    taken (receipt :: receipts) = receipt.bytes ++ taken receipts := List.flatMap_cons

theorem taken_append (receipts others : List Receipt) : taken (receipts ++ others) = taken receipts ++ taken others :=
  List.flatMap_append

theorem taken_transient (only : ∀ receipt ∈ receipts, receipt = .fault transient) : taken receipts = [] := by
  refine List.flatMap_eq_nil_iff.mpr fun receipt member => ?_
  rw [only receipt member, Receipt.bytes]

theorem bytes_receive (fault? : Option String) (stdin : Stdin) :
    stdin.bytes = (receive fault? stdin).1.bytes ++ (receive fault? stdin).2.bytes := by
  obtain ⟨bytes, faults, reads⟩ := stdin
  cases fault? with
  | some code => rfl
  | none => cases bytes <;> rfl

theorem faults_receive (fault? : Option String) (stdin : Stdin) : (receive fault? stdin).2.faults = stdin.faults := by
  obtain ⟨bytes, faults, reads⟩ := stdin
  cases fault? with
  | some code => rfl
  | none => cases bytes <;> rfl

theorem read_bytes (stdin : Stdin) : stdin.bytes = stdin.read.1.bytes ++ stdin.read.2.bytes :=
  bytes_receive stdin.faults.head?.join { stdin with faults := stdin.faults.tail, reads := stdin.reads + 1 }

theorem receive_fault {fault? : Option String} (fails : (receive fault? stdin).1 = .fault code) :
    fault? = some code := by
  obtain ⟨bytes, faults, reads⟩ := stdin
  cases fault? with
  | some other => rw [Receipt.fault.inj fails]
  | none => cases bytes <;> cases fails

theorem bytes_of_nothing {fault? : Option String} (ends : (receive fault? stdin).1 = .nothing) :
    (receive fault? stdin).2.bytes = [] := by
  obtain ⟨bytes, faults, reads⟩ := stdin
  cases fault? with
  | some code => cases ends
  | none =>
    cases bytes with
    | nil => rfl
    | cons => cases ends

namespace Receives

theorem single (stdin : Stdin) : Receives stdin [stdin.read.1] stdin.read.2 := .cons (.nil _)

theorem append (first : Receives stdin receipts middle) (second : Receives middle others after) :
    Receives stdin (receipts ++ others) after := by
  induction first with
  | nil => exact second
  | cons _ ih => exact .cons (ih second)

/-- No byte is lost, and none is read twice. -/
theorem bytes_eq (receives : Receives stdin receipts after) : stdin.bytes = taken receipts ++ after.bytes := by
  induction receives with
  | nil => rfl
  | @cons stdin after receipts _ ih =>
    rw [read_bytes, ih, taken_cons, List.append_assoc]

theorem faults_suffix (receives : Receives stdin receipts after) : after.faults <:+ stdin.faults := by
  induction receives with
  | nil => exact List.suffix_refl _
  | @cons stdin after receipts _ ih =>
    rw [read, faults_receive] at ih
    exact ih.trans (List.tail_suffix _)

/-- The faults that are met were to come. -/
theorem mem_faults (receives : Receives stdin receipts after) (member : .fault code ∈ receipts) :
    some code ∈ stdin.faults := by
  induction receives with
  | nil => simp at member
  | @cons stdin after receipts _ ih =>
    rcases List.mem_cons.mp member with here | later
    · have first : stdin.faults.head?.join = some code := receive_fault here.symm
      exact List.mem_of_mem_head? (Option.join_eq_some_iff.mp first)
    · exact (single stdin).faults_suffix.subset (ih later)

/-- When nothing is read, nothing is left. -/
theorem nothing_left (receives : Receives stdin (receipts ++ [.nothing]) after) : after.bytes = [] := by
  generalize whole : receipts ++ [.nothing] = all at receives
  induction receives generalizing receipts with
  | nil => simp at whole
  | @cons stdin after others rest ih =>
    cases receipts with
    | nil =>
      obtain ⟨here, rfl⟩ := List.cons.inj whole
      cases rest
      exact bytes_of_nothing here.symm
    | cons first receipts => exact ih (List.cons.inj whole).2

end Receives

/-- A read that is tried again while it fails for a moment only. -/
def retried (stdin : Stdin) : Receipt × Stdin :=
  match retry stdin.faults with
  | (fault?, faults, tried) => receive fault? { stdin with faults, reads := stdin.reads + tried }

theorem retry_lasts (faults : List (Option String)) : (retry faults).1 ≠ some transient := by
  induction faults with
  | nil => nofun
  | cons fault? faults ih =>
    cases fault? with
    | none => nofun
    | some code =>
      rw [retry]
      split
      · exact ih
      · rename_i lasts
        simpa using lasts

theorem retried_lasts (stdin : Stdin) (code : String) (fails : stdin.retried.1 = .fault code) : code ≠ transient := by
  have fault := receive_fault fails
  rintro rfl
  exact retry_lasts _ fault

theorem retried_bytes (stdin : Stdin) : stdin.bytes = stdin.retried.1.bytes ++ stdin.retried.2.bytes :=
  bytes_receive (retry stdin.faults).1
    { stdin with faults := (retry stdin.faults).2.1, reads := stdin.reads + (retry stdin.faults).2.2 }

theorem receives_retried (stdin : Stdin) :
    ∃ skipped, (∀ receipt ∈ skipped, receipt = .fault transient) ∧
      Receives stdin (skipped ++ [stdin.retried.1]) stdin.retried.2 := by
  obtain ⟨bytes, faults, reads⟩ := stdin
  induction faults generalizing reads with
  | nil => exact ⟨[], by simp, .single _⟩
  | cons fault? faults ih =>
    cases fault? with
    | none => exact ⟨[], by simp, .single _⟩
    | some code =>
      by_cases passes : code = transient
      · have again : retried ⟨bytes, some code :: faults, reads⟩ = retried ⟨bytes, faults, reads + 1⟩ := by
          simp [retried, retry, passes, Nat.add_assoc, Nat.add_comm 1]
        obtain ⟨skipped, only, receives⟩ := ih (reads + 1)
        rw [again]
        exact ⟨.fault code :: skipped, by simpa [passes] using only, .cons receives⟩
      · have here : retried ⟨bytes, some code :: faults, reads⟩ = read ⟨bytes, some code :: faults, reads⟩ := by
          simp [retried, read, retry, passes]
        rw [here]
        exact ⟨[], by simp, .single _⟩

/-- A line goes on with the byte that is read, up to a line break. -/
theorem lineAfter_eq (begun : List UInt8) (stdin : Stdin) :
    lineAfter begun stdin.faults stdin.reads stdin.bytes =
      match stdin.retried with
      | (.fault code, after) => (interrupted begun code, after)
      | (.nothing, after) => (.ok (lastLine begun), after)
      | (.byte value, after) =>
        if value = 10 then (.ok (some begun.reverse), after)
        else lineAfter (value :: begun) after.faults after.reads after.bytes := by
  obtain ⟨bytes, faults, reads⟩ := stdin
  cases bytes <;> simp only [lineAfter, retried] <;> generalize retry faults = tried <;>
    obtain ⟨_ | code, faults, tried⟩ := tried <;> rfl

/-- How a line was read: what the reads before the last gave, what that gave, and the line that came of it. -/
structure Fetch where
  receipts : List Receipt
  last : Receipt
  line? : Option (List UInt8)

namespace Fetch

def all (fetch : Fetch) : List Receipt := fetch.receipts ++ [fetch.last]

/-- The bytes of the line, with the line break that ended it. -/
def restored (fetch : Fetch) : List UInt8 :=
  fetch.line?.getD [] ++ if fetch.last = .byte 10 then [10] else []

/-- The bytes of a line are read, and nothing but faults that pass among them, up to a line break or the end of
input. There is no line just if the end is met before any byte. -/
structure Holds (fetch : Fetch) : Prop where
  within : ∀ receipt ∈ fetch.receipts, receipt = .fault transient ∨ ∃ value, value ≠ 10 ∧ receipt = .byte value
  ended : fetch.last = .byte 10 ∨ fetch.last.IsEnd
  line : ∀ line, fetch.line? = some line → line = taken fetch.receipts
  none_iff : fetch.line? = none ↔ fetch.last.IsEnd ∧ taken fetch.receipts = []

end Fetch

/-- What comes of a line: it is there, the end of input was met, or a read failed for good. -/
theorem lineAfter_receives (begun : List UInt8) (stdin : Stdin) :
    ∃ receipts last, (∀ receipt ∈ receipts, receipt = .fault transient ∨ ∃ value, value ≠ 10 ∧ receipt = .byte value) ∧
      Receives stdin (receipts ++ [last]) (lineAfter begun stdin.faults stdin.reads stdin.bytes).2 ∧
      (last = .byte 10 ∧ (lineAfter begun stdin.faults stdin.reads stdin.bytes).1 =
          .ok (some (begun.reverse ++ taken receipts)) ∨
        last.IsEnd ∧ (lineAfter begun stdin.faults stdin.reads stdin.bytes).1 =
          .ok (lastLine ((taken receipts).reverse ++ begun)) ∨
        ∃ code, code ≠ transient ∧ code ≠ endFault ∧ last = .fault code) := by
  obtain ⟨skipped, only, receives⟩ := receives_retried stdin
  have none := taken_transient only
  have first : ∀ receipt ∈ skipped, receipt = .fault transient ∨ ∃ value, value ≠ 10 ∧ receipt = .byte value :=
    fun receipt member => .inl (only receipt member)
  have lasts := stdin.retried_lasts
  have bytes := stdin.retried_bytes
  rw [lineAfter_eq]
  generalize stdin.retried = found at receives lasts bytes
  obtain ⟨receipt, after⟩ := found
  cases receipt with
  | fault code =>
    by_cases ending : code = endFault
    · exact ⟨skipped, .fault code, first, receives,
        .inr (.inl ⟨.inr (by rw [ending]), by simp [interrupted, ending, none]⟩)⟩
    · exact ⟨skipped, .fault code, first, receives, .inr (.inr ⟨code, lasts code rfl, ending, rfl⟩)⟩
  | nothing => exact ⟨skipped, .nothing, first, receives, .inr (.inl ⟨.inl rfl, by rw [none]; rfl⟩)⟩
  | byte value =>
    dsimp only
    split
    · rename_i isBreak
      subst isBreak
      exact ⟨skipped, .byte 10, first, receives, .inl ⟨rfl, by rw [none, List.append_nil]⟩⟩
    · rename_i other
      obtain ⟨receipts, last, within, rest, ends⟩ := lineAfter_receives (value :: begun) after
      have whole : taken (skipped ++ .byte value :: receipts) = value :: taken receipts := by
        rw [taken_append, none]
        rfl
      refine ⟨skipped ++ .byte value :: receipts, last, ?_, by simpa using receives.append rest, ?_⟩
      · intro receipt member
        rcases List.mem_append.mp member with early | late
        · exact first receipt early
        · rcases List.mem_cons.mp late with rfl | later
          · exact .inr ⟨value, other, rfl⟩
          · exact within receipt later
      · rw [whole]
        simpa using ends
termination_by stdin.bytes.length
decreasing_by
  rw [bytes]
  exact Nat.lt_succ_self _

/-- A line is there, or the end of input, if no read fails for good. -/
theorem line_fetched (mild : ∀ code, some code ∈ stdin.faults → code = transient ∨ code = endFault) :
    ∃ fetch : Fetch, fetch.Holds ∧ Receives stdin fetch.all stdin.line.2 ∧ stdin.line.1 = .ok fetch.line? := by
  obtain ⟨receipts, last, within, receives, ends⟩ := lineAfter_receives [] stdin
  rcases ends with ⟨rfl, line⟩ | ⟨ending, line⟩ | ⟨code, lasts, other, rfl⟩
  · refine ⟨⟨receipts, .byte 10, some (taken receipts)⟩, ⟨within, .inl rfl, by simp, ?_⟩, receives, line⟩
    simp [Receipt.IsEnd]
  · refine ⟨⟨receipts, last, lastLine (taken receipts).reverse⟩, ⟨within, .inr ending, ?_, ?_⟩, receives, ?_⟩
    · simp [lastLine]
    · simp [lastLine, ending]
    · rw [List.append_nil] at line
      exact line
  · have member : some code ∈ stdin.faults := receives.mem_faults (by simp)
    rcases mild code member with same | same
    · exact absurd same lasts
    · exact absurd same other

/-- What is put back is what was read. -/
theorem Fetch.Holds.restored_eq {fetch : Fetch} (holds : fetch.Holds) : fetch.restored = taken fetch.all := by
  obtain ⟨receipts, last, line?⟩ := fetch
  obtain ⟨_, ended, line, none_iff⟩ := holds
  have same : line?.getD [] = taken receipts := by
    cases line? with
    | none => exact (none_iff.mp rfl).2.symm
    | some found => exact line found rfl
  rw [restored, all, taken_append, same]
  rcases ended with rfl | rfl | rfl <;> rfl

end Stdin
end TapeScript
