import TapeScript.Proofs.Correctness

/-! Input as a running program reads it. Its reads give the bytes of the literal, then those of each line, a zero
after every one of them; beyond that they find the end of input. A line is asked for by the first read that needs
it. -/
namespace TapeScript

/-- The bytes of some lines, as they are read. -/
def lineBytes (lines : List String) : List UInt8 := lines.flatMap fun line => terminated (Text.utf8 line)

/-- All that there is to read. -/
def supply (literal? : Option Literal) (lines : List String) : List UInt8 := Literal.buffer literal? ++ lineBytes lines

/-- What a read gives; none at the end of input. -/
abbrev Reading := Except Error (Option UInt8)

/-- What the reads of a program gave on the way to a state. They give the bytes in order, and past the last one
there is none; what is stored of a byte is a number from 0 to 255. A line has been asked for just if there were
more reads than bytes before it. -/
structure Delivery (literal? : Option Literal) (lines : List String) (readings : List Reading)
    (state : State Collector) :
    Prop where
  inOrder : ∀ (index : Nat) (reading : Reading), readings[index]? = some reading →
    reading = .ok (supply literal? lines)[index]?
  inRange : ∀ byte, .ok (some byte) ∈ readings →
    0 ≤ (Int32.ofNat byte.toNat).toInt ∧ (Int32.ofNat byte.toNat).toInt ≤ 255
  untouched : state.host.lines <:+ lines
  lazy : ∀ front line rest, lines = front ++ line :: rest →
    (state.host.lines.length ≤ rest.length ↔ (supply literal? front).length < readings.length)

theorem lineBytes_append (lines others : List String) :
    lineBytes (lines ++ others) = lineBytes lines ++ lineBytes others :=
  List.flatMap_append

theorem lineBytes_pos {lines : List String} (left : lines ≠ []) : 0 < (lineBytes lines).length := by
  cases lines with
  | nil => exact absurd rfl left
  | cons line lines =>
    simp only [lineBytes, List.flatMap_cons, terminated, List.length_append, List.length_singleton]
    omega

theorem supply_append (literal? : Option Literal) (lines others : List String) :
    supply literal? (lines ++ others) = supply literal? lines ++ lineBytes others := by
  rw [supply, supply, lineBytes_append, List.append_assoc]

theorem supply_length_le {lines others : List String} (literal? : Option Literal) (first : lines <+: others) :
    (supply literal? lines).length ≤ (supply literal? others).length := by
  obtain ⟨more, rfl⟩ := first
  rw [supply_append, List.length_append]
  exact Nat.le_add_right _ _

/-- What is left to read: bytes that were taken in, and lines. -/
def State.unread (state : State Collector) : List UInt8 × List String := (state.pending, state.host.lines)

/-- What so many reads give, one after the other. -/
def State.readAll {ρ : Type} [Host ρ] : Nat → State ρ → List Reading
  | 0, _ => []
  | count + 1, state => state.readByte.1 :: readAll count state.readByte.2

/-- The state after so many reads. -/
def State.afterReads {ρ : Type} [Host ρ] : Nat → State ρ → State ρ
  | 0, state => state
  | count + 1, state => afterReads count state.readByte.2

/-- How far the reads of a program have come; the line asked for last was needed. -/
structure Supplied (literal? : Option Literal) (lines : List String) (readings : List Reading)
    (unread : List UInt8 × List String) : Prop where
  inOrder : ∀ (index : Nat) (reading : Reading), readings[index]? = some reading →
    reading = .ok (supply literal? lines)[index]?
  rest : unread.1 ++ lineBytes unread.2 = (supply literal? lines).drop readings.length
  untouched : unread.2 <:+ lines
  needed : ∀ front line, lines = front ++ line :: unread.2 → (supply literal? front).length < readings.length

namespace Supplied

variable {literal? : Option Literal} {lines : List String} {readings : List Reading} {unread : List UInt8 × List String}

theorem start (literal? : Option Literal) (lines : List String) :
    Supplied literal? lines [] (State.start literal? (Collector.ofLines lines)).unread where
  inOrder index reading found := by simp at found
  rest := rfl
  untouched := List.suffix_refl lines
  needed front line same := by
    have lengths := congrArg List.length same
    simp [State.unread, State.start, Collector.ofLines] at lengths
    omega

/-- While lines are left, no more was read than came from those before them. -/
theorem length_eq {before : List String} (supplied : Supplied literal? lines readings unread)
    (split : lines = before ++ unread.2) (left : unread.2 ≠ []) :
    readings.length + unread.1.length = (supply literal? before).length := by
  have rest := congrArg List.length supplied.rest
  have more := lineBytes_pos left
  rw [split, supply_append] at rest
  simp only [List.length_append, List.length_drop] at rest
  omega

/-- A read that takes the next byte of what is left, if there is one. -/
private theorem next {after : List UInt8 × List String} {reading : Reading}
    (supplied : Supplied literal? lines readings unread)
    (given : reading = .ok (unread.1 ++ lineBytes unread.2)[0]?)
    (rest : after.1 ++ lineBytes after.2 = (unread.1 ++ lineBytes unread.2).drop 1) (fewer : after.2 <:+ unread.2)
    (needed : ∀ front line, lines = front ++ line :: after.2 → (supply literal? front).length ≤ readings.length) :
    Supplied literal? lines (readings ++ [reading]) after where
  inOrder index other found := by
    rcases Nat.lt_trichotomy index readings.length with before | rfl | beyond
    · exact supplied.inOrder index other (by rwa [List.getElem?_append_left before] at found)
    · have same : reading = other := by simpa using found
      rw [← same, given, supplied.rest, List.getElem?_drop, Nat.add_zero]
    · rw [List.getElem?_eq_none (by rw [List.length_append]; exact beyond)] at found
      cases found
  rest := by rw [rest, supplied.rest, List.drop_drop, List.length_append]; rfl
  untouched := fewer.trans supplied.untouched
  needed front line split := by
    rw [List.length_append]
    exact Nat.lt_succ_of_le (needed front line split)

theorem read {state : State Collector} (supplied : Supplied literal? lines readings state.unread) :
    Supplied literal? lines (readings ++ [state.readByte.1]) state.readByte.2.unread := by
  obtain ⟨tape, pointer, pending, ⟨left, output, dumps⟩⟩ := state
  have needed {front : List String} {line : String} (split : lines = front ++ line :: left) :
      (supply literal? front).length ≤ readings.length := Nat.le_of_lt (supplied.needed front line split)
  cases pending with
  | cons byte pending => exact supplied.next rfl rfl (List.suffix_refl _) fun _ _ => needed
  | nil =>
    cases left with
    | nil => exact supplied.next rfl rfl (List.suffix_refl _) fun _ _ => needed
    | cons line left =>
      have whole : ∃ byte rest, terminated (Text.utf8 line) = byte :: rest := by
        cases Text.utf8 line <;> exact ⟨_, _, rfl⟩
      obtain ⟨byte, rest, bytes⟩ := whole
      have read : State.readByte (⟨tape, pointer, [], ⟨line :: left, output, dumps⟩⟩ : State Collector) =
          (.ok (some byte), ⟨tape, pointer, rest, ⟨left, output, dumps⟩⟩) := by
        simp [State.readByte, Host.readLine, Collector.readLine, bytes]
      rw [read]
      have lineFirst : lineBytes (line :: left) = byte :: rest ++ lineBytes left := by
        rw [lineBytes, List.flatMap_cons, bytes]
        rfl
      refine supplied.next ?_ ?_ (List.suffix_cons line left) fun front last split => ?_
      · exact congrArg (fun bytes : List UInt8 => (.ok bytes[0]? : Reading)) lineFirst.symm
      · exact congrArg (List.drop 1) lineFirst.symm
      · -- The line that was asked for is the one after those that were used up.
        obtain ⟨before, same⟩ := supplied.untouched
        obtain rfl : before = front := (List.append_inj' (same.trans split) rfl).1
        exact Nat.le_of_eq (supplied.length_eq same.symm (List.cons_ne_nil line left)).symm

/-- Whatever leaves the input alone reads nothing. -/
theorem of_unread {state next : State Collector} (supplied : Supplied literal? lines readings state.unread)
    (same : next.unread = state.unread) : Supplied literal? lines (readings ++ []) next.unread := by
  rw [List.append_nil, same]
  exact supplied

theorem readAll {state : State Collector} (supplied : Supplied literal? lines readings state.unread) (count : Nat) :
    Supplied literal? lines (readings ++ state.readAll count) (state.afterReads count).unread := by
  induction count generalizing readings state with
  | zero => exact supplied.of_unread rfl
  | succ count ih =>
    have rest := ih supplied.read
    rwa [List.append_assoc] at rest

/-- What such reads mean for the program. -/
theorem delivery {state : State Collector} (supplied : Supplied literal? lines readings state.unread) :
    Delivery literal? lines readings state where
  inOrder := supplied.inOrder
  inRange byte _ := by
    have small := byte.toNat_lt
    rw [Int32.toInt_ofNat_of_lt (by omega)]
    omega
  untouched := supplied.untouched
  lazy front line rest split := by
    obtain ⟨before, same⟩ := supplied.untouched
    have lengths : before.length + state.host.lines.length = front.length + (rest.length + 1) := by
      simpa [State.unread] using congrArg List.length (same.trans split)
    have frontFirst : front <+: lines := ⟨_, split.symm⟩
    constructor
    · intro asked
      -- The line is no later than the last one that was asked for.
      rcases List.eq_nil_or_concat before with rfl | ⟨earlier, last, rfl⟩
      · rw [List.length_nil] at lengths
        omega
      · have splitLast : lines = earlier ++ last :: state.unread.2 := by simp [← same]
        rw [List.concat_eq_append, List.length_append, List.length_singleton] at lengths
        have order : front <+: earlier := List.prefix_of_prefix_length_le frontFirst ⟨_, splitLast.symm⟩ (by omega)
        exact Nat.lt_of_le_of_lt (supply_length_le literal? order) (supplied.needed earlier last splitLast)
    · intro beyond
      refine Nat.le_of_not_lt fun early => ?_
      have left : state.unread.2 ≠ [] := List.ne_nil_of_length_pos (Nat.lt_of_le_of_lt (Nat.zero_le _) early)
      have order : before <+: front := List.prefix_of_prefix_length_le ⟨_, same⟩ frontFirst (by omega)
      have most := supplied.length_eq same.symm left
      have bound := supply_length_le literal? order
      omega

end Supplied

theorem State.unread_input (state : State Collector) (mode : EndOfInput) :
    (state.input mode).state.unread = state.readByte.2.unread := by
  rw [State.input]
  generalize state.readByte = read
  obtain ⟨_ | _ | byte, after⟩ := read
  · rfl
  · cases mode <;> rfl
  · rfl

theorem State.unread_mulAdd (state : State Collector) (offset amount divisor : Int) (count : UInt32) :
    (state.mulAdd offset amount divisor count).unread = state.unread := by
  rw [State.mulAdd]
  split
  · rw [State.addScaled]
    split <;> rfl
  · rfl

theorem State.unread_whenSet (state : State Collector) {change : State Collector → State Collector}
    (same : (change state).unread = state.unread) : (state.whenSet change).unread = state.unread := by
  rw [State.whenSet]
  split
  · exact same
  · rfl

/-- How often extensions read. They may do so at will, but get at the input in no other way. -/
def Meaning.ReadsBy (meaning : Meaning Collector) (times : Option String → State Collector → Nat) : Prop :=
  ∀ symbol? state, (meaning.extension symbol? state).state.unread = (state.afterReads (times symbol? state)).unread

namespace Token

variable {ρ : Type} [Host ρ]

mutual

/-- What the reads of a token give. -/
def readings (meaning : Meaning ρ) (times : Option String → State ρ → Nat) (count : UInt32) :
    Token → State ρ → List Reading
  | ⟨kind, _, _, _, body?, symbol?⟩, state =>
    match kind with
    | .input => [state.readByte.1]
    | .extension => state.readAll (times symbol? state)
    | .reduced =>
      let divisor := loopDivisor { kind, body? }
      let origin := state.tape.read state.pointer
      bodyReadings meaning times (if divisor = 0 then count else iterations divisor origin) body? state
    | _ => []

def bodyReadings (meaning : Meaning ρ) (times : Option String → State ρ → Nat) (count : UInt32) :
    Option (List Token) → State ρ → List Reading
  | none, _ => []
  | some tokens, state => allReadings meaning times count tokens state

/-- What the reads of statements give, up to the one that ends the program. -/
def allReadings (meaning : Meaning ρ) (times : Option String → State ρ → Nat) (count : UInt32) :
    List Token → State ρ → List Reading
  | [], _ => []
  | token :: tokens, state =>
    readings meaning times count token state ++
      match perform meaning count token state with
      | .next next => allReadings meaning times count tokens next
      | .ended _ | .failed .. => []

end

variable {literal? : Option Literal} {lines : List String} {meaning : Meaning Collector}
  {times : Option String → State Collector → Nat}

-- The induction follows the statements of reduced loops.
mutual

theorem perform_supplied (reads : meaning.ReadsBy times) (count : UInt32) :
    ∀ (token : Token) {readings : List Reading} {state : State Collector},
      Supplied literal? lines readings state.unread →
      Supplied literal? lines (readings ++ token.readings meaning times count state)
        (token.perform meaning count state).state.unread
  | ⟨kind, amount, offset, divisor?, body?, symbol?⟩, _, state, supplied => by
    cases kind with
    | input =>
      rw [perform, State.unread_input]
      exact supplied.read
    | reduced => exact performBody_supplied reads _ body? supplied
    | extension =>
      change Supplied _ _ _ (meaning.extension symbol? state).state.unread
      rw [reads symbol? state]
      exact supplied.readAll (times symbol? state)
    | mulAdd => exact supplied.of_unread (state.unread_mulAdd ..)
    | condAdd | condClear => exact supplied.of_unread (state.unread_whenSet rfl)
    | inc | dec | clear | right | left | scanRight | scanLeft | output | addAt | clearAt | addMove | moveAdd
    | moveClear | loopOpen | loopClose | unknown => exact supplied.of_unread rfl

theorem performBody_supplied (reads : meaning.ReadsBy times) (count : UInt32) :
    ∀ (body? : Option (List Token)) {readings : List Reading} {state : State Collector},
      Supplied literal? lines readings state.unread →
      Supplied literal? lines (readings ++ bodyReadings meaning times count body? state)
        (performBody meaning count body? state).state.unread
  | none, _, _, supplied => supplied.of_unread rfl
  | some tokens, _, _, supplied => performAll_supplied reads count tokens supplied

theorem performAll_supplied (reads : meaning.ReadsBy times) (count : UInt32) :
    ∀ (tokens : List Token) {readings : List Reading} {state : State Collector},
      Supplied literal? lines readings state.unread →
      Supplied literal? lines (readings ++ allReadings meaning times count tokens state)
        (performAll meaning count tokens state).state.unread
  | [], _, _, supplied => supplied.of_unread rfl
  | token :: tokens, _, state, supplied => by
    have first := perform_supplied reads count token supplied
    rw [allReadings, performAll, ← List.append_assoc]
    cases performed : token.perform meaning count state with
    | next next =>
      rw [performed] at first
      exact performAll_supplied reads count tokens first
    | ended | failed =>
      rw [performed] at first
      exact first.of_unread rfl

end
end Token

namespace Config

variable {ρ : Type} [Host ρ]

def stepReadings (meaning : Meaning ρ) (times : Option String → State ρ → Nat) : Config ρ → List Reading
  | ⟨.token token _, _, state⟩ => token.readings meaning times 0 state
  | ⟨.halt, _, _⟩ | ⟨.loop .., _, _⟩ => []

/-- What the reads of a running program give within so many steps. -/
def readings (meaning : Meaning ρ) (times : Option String → State ρ → Nat) : Nat → Config ρ → List Reading
  | 0, _ => []
  | steps + 1, config =>
    config.stepReadings meaning times ++
      match config.step meaning with
      | .inl next => next.readings meaning times steps
      | .inr _ => []

/-- The state that is reached. -/
def reached : Config ρ ⊕ Outcome ρ → State ρ := Sum.elim (·.state) (·.state)

variable {literal? : Option Literal} {lines : List String} {given : List Reading} {meaning : Meaning Collector}
  {times : Option String → State Collector → Nat} {config : Config Collector}

theorem step_supplied (reads : meaning.ReadsBy times) (supplied : Supplied literal? lines given config.state.unread) :
    Supplied literal? lines (given ++ config.stepReadings meaning times) (reached (config.step meaning)).unread := by
  obtain ⟨code, after, state⟩ := config
  cases code with
  | halt => cases after <;> exact supplied.of_unread rfl
  | token token rest =>
    have performed := token.perform_supplied reads 0 supplied
    rw [step]
    cases same : token.perform meaning 0 state <;> rw [same] at performed <;> exact performed
  | loop body rest =>
    rw [step]
    split <;> exact supplied.of_unread rfl

theorem advance_supplied (reads : meaning.ReadsBy times) (steps : Nat)
    (supplied : Supplied literal? lines given config.state.unread) :
    Supplied literal? lines (given ++ config.readings meaning times steps)
      (reached (config.advance meaning steps)).unread := by
  induction steps generalizing config given with
  | zero => exact supplied.of_unread rfl
  | succ steps ih =>
    have stepped := step_supplied reads supplied
    rw [readings, advance, ← List.append_assoc]
    cases same : config.step meaning with
    | inl next =>
      rw [same] at stepped
      exact ih stepped
    | inr outcome =>
      rw [same] at stepped
      exact stepped.of_unread rfl

end Config

namespace Interpreter.Config

variable {ρ : Type} [Host ρ]

def stepReadings (program : Program) (config : Config ρ) : List Reading :=
  if program.code[config.position]? = some .input then [config.state.readByte.1] else []

/-- What the reads of the interpreter give within so many instructions. -/
def readings (program : Program) (eof : EndOfInput) : Nat → Config ρ → List Reading
  | 0, _ => []
  | steps + 1, config =>
    config.stepReadings program ++
      match config.step program eof with
      | .inl next => next.readings program eof steps
      | .inr _ => []

/-- The state that is reached. -/
def reached : Config ρ ⊕ Final ρ → State ρ := Sum.elim (·.state) (·.state)

variable {literal? : Option Literal} {lines : List String} {given : List Reading} {program : Program}
  {eof : EndOfInput} {config : Config Collector}

theorem step_supplied (supplied : Supplied literal? lines given config.state.unread) :
    Supplied literal? lines (given ++ config.stepReadings program) (reached (config.step program eof)).unread := by
  obtain ⟨position, steps, state⟩ := config
  rw [step, stepReadings]
  cases found : program.code[position]? with
  | none => exact supplied.of_unread rfl
  | some instruction =>
    cases instruction with
    | input =>
      have read := supplied.read
      rw [← state.unread_input eof] at read
      rw [if_pos rfl]
      cases same : state.input eof <;> rw [same] at read <;> exact read
    | inc | dec | right | left | loopOpen | loopClose | output => exact supplied.of_unread rfl

theorem advance_supplied (steps : Nat) (supplied : Supplied literal? lines given config.state.unread) :
    Supplied literal? lines (given ++ config.readings program eof steps)
      (reached (config.advance program eof steps)).unread := by
  induction steps generalizing config given with
  | zero => exact supplied.of_unread rfl
  | succ steps ih =>
    have stepped := @step_supplied _ _ _ program eof _ supplied
    rw [readings, advance, ← List.append_assoc]
    cases same : config.step program eof with
    | inl next =>
      rw [same] at stepped
      exact ih stepped
    | inr final =>
      rw [same] at stepped
      exact stepped.of_unread rfl

end Interpreter.Config

/-- Input is delivered in full, in order, and no sooner than it is needed, to the interpreter and to compiled programs
alike. Extensions may mean anything and read as often as they like, as long as they get at the input by reading it. -/
theorem input_delivered (lines : List String) :
    (∀ (literal? : Option Literal) (source : String) (eof : EndOfInput) (steps : Nat),
      let program := Interpreter.Program.ofSource source
      let config : Interpreter.Config Collector := ⟨0, 0, .start literal? (Collector.ofLines lines)⟩
      Delivery literal? lines (config.readings program eof steps)
        (Interpreter.Config.reached (config.advance program eof steps))) ∧
    ∀ (compilation : Compilation) (meaning : Meaning Collector) (times : Option String → State Collector → Nat),
      meaning.ReadsBy times →
      ∀ config, compilation.start? (Collector.ofLines lines) = some config → ∀ steps,
        Delivery compilation.options.input? lines (config.readings meaning times steps)
          (Config.reached (config.advance meaning steps)) := by
  constructor
  · intro literal? source eof steps program config
    have supplied : Supplied literal? lines [] config.state.unread := .start literal? lines
    exact (Interpreter.Config.advance_supplied steps supplied).delivery
  · intro compilation meaning times reads config started steps
    obtain ⟨code, _, same⟩ := Option.bind_eq_some_iff.mp started
    have supplied : Supplied compilation.options.input? lines [] config.state.unread := by
      rw [← Option.some.inj same]
      exact .start _ lines
    exact (Config.advance_supplied reads steps supplied).delivery

/-- A meaning under which extensions read a byte and do nothing else. -/
def Meaning.reading : Meaning Collector := ⟨.halt, fun _ state => .next state.readByte.2⟩

/-- The statement of a user takes the first byte, and the program goes on with the second one. -/
theorem input_delivered_line : ∃ compilation config,
    compile "!," { input? := some (.text "ab"), extensions? := some [⟨"!", "readByte();"⟩], optimize? := some false } =
      .ok compilation ∧
    compilation.start? (Collector.ofLines ["c"]) = some config ∧
    config.readings .reading (fun _ _ => 1) 2 = [.ok (some 97), .ok (some 98)] ∧
    ∀ steps, Delivery (some (.text "ab")) ["c"] (config.readings .reading (fun _ _ => 1) steps)
      (Config.reached (config.advance .reading steps)) := by
  let given : CompileOptions :=
    { input? := some (.text "ab"), extensions? := some [⟨"!", "readByte();"⟩], optimize? := some false }
  have compiles : ∃ compilation, compile "!," given = .ok compilation := ⟨_, rfl⟩
  obtain ⟨compilation, compiled⟩ := compiles
  obtain ⟨parses, options⟩ := tokens_of_plain rfl compiled
  have tokens : compilation.tokens = [.extension "!", .single .input] := (Except.ok.inj parses).symm
  have started : compilation.start? (Collector.ofLines ["c"]) =
      some ⟨.token (.extension "!") (.token (.single .input) .halt), [],
        .start (some (.text "ab")) (Collector.ofLines ["c"])⟩ := by
    rw [Compilation.start?, tokens, options]
    rfl
  have reads : Meaning.ReadsBy .reading (fun _ _ => 1) := fun _ _ => rfl
  have delivered := (input_delivered ["c"]).2 compilation .reading (fun _ _ => 1) reads _ started
  rw [options] at delivered
  exact ⟨compilation, _, compiled, started, rfl, delivered⟩

end TapeScript
