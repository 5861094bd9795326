import TapeScript.Host.Collector
import TapeScript.Proofs.Machine.Size
import TapeScript.Proofs.Refusal
import TapeScript.Proofs.Statistics

/-! Showing the cells around the pointer. The instruction for it cuts sixteen cells out of the tape, fewer
where the tape ends. Where the tape begins it misses its cells: a bound in front of the first of them counts
from the end, so that nothing is cut out at all. -/
namespace TapeScript

namespace Tape

/-- The cells from eight before a position to seven after it, as far as there are any. -/
def around (tape : Tape) (position : Int) : List Int32 :=
  let first := (position - 8).toNat
  (List.range' first (min tape.size (position + 8).toNat - first)).map fun index : Nat => tape.read index

variable {tape : Tape} {position : Int}

theorem extract_eq_map_read {first last : Nat} (inside : last ≤ tape.size) :
    (tape.cells.extract first last).toList =
      (List.range' first (last - first)).map fun index : Nat => tape.read index := by
  apply List.ext_getElem
  · simp only [Array.length_toList, Array.size_extract, List.length_map, List.length_range']
    rw [size] at inside
    omega
  · intro index _ here
    have place : first + index < tape.cells.size := by
      rw [List.length_map, List.length_range'] at here
      exact Nat.lt_of_lt_of_le (by omega) inside
    simp [read, read?, place]

theorem slice_eq_around (covers : tape.Covers position) (far : 8 ≤ position) :
    tape.slice (position - 8) (position + 8) = tape.around position := by
  obtain ⟨_, below⟩ := covers
  have first : tape.sliceBound (position - 8) = (position - 8).toNat := by
    rw [sliceBound, if_neg (by omega)]
    omega
  have last : tape.sliceBound (position + 8) = min tape.size (position + 8).toNat := by
    rw [sliceBound, if_neg (by omega), Nat.min_comm]
  rw [slice, first, last, extract_eq_map_read (Nat.min_le_left _ _)]
  rfl

/-- The first bound counts from the end of the tape here, and comes to lie behind the last one. -/
theorem slice_eq_nil (covers : tape.Covers position) (near : position < 8) (large : 16 ≤ tape.size) :
    tape.slice (position - 8) (position + 8) = [] := by
  obtain ⟨above, _⟩ := covers
  have order : tape.sliceBound (position + 8) ≤ tape.sliceBound (position - 8) := by
    rw [sliceBound, sliceBound, if_neg (by omega), if_pos (by omega)]
    omega
  rw [slice, Array.extract_empty_of_stop_le_start order]

end Tape

namespace Extension

/-- The statement of a symbol is that of its extension, for no other has the symbol. -/
theorem template?_of_mem {extensions : List Extension} {extension : Extension} (accepted : check extensions = .ok ())
    (member : extension ∈ extensions) : template? extensions (some extension.symbol) = some extension.template := by
  obtain ⟨earlier, later, rfl⟩ := List.append_of_mem member
  have fresh : earlier.find? (fun other => other.symbol == extension.symbol) = none := by
    refine List.find?_eq_none.mpr fun other inside same => ?_
    obtain ⟨error, breaks⟩ := exists_breaks_iff.mpr (.inr (.inr ⟨other, inside, by simpa using same⟩))
    exact sound_of_check accepted earlier extension later error rfl breaks
  simp [template?, List.find?_append, fresh]

end Extension

/-- No extension is executed as part of a reduced loop. -/
theorem Reduction.not_extension_of_reduceBody {body : List Token} {token : Token}
    (reduces : reduceBody body = .ok (some token)) : ∀ statement ∈ token.body, statement.kind ≠ .extension := by
  obtain ⟨walk, _, rfl⟩ := reducible_of_reduceBody reduces
  intro statement member
  rcases List.mem_append.mp member with inside | last
  · obtain ⟨change, _, rfl⟩ := List.mem_map.mp inside
    cases change with
    | clear | settled => simp [Change.token, Token.condClear, Token.condAdd]
    | scaled =>
      rw [Change.token]
      split <;> simp [Token.condAdd]
  · simp [List.mem_singleton.mp last, Token.clearAt]

variable {ρ : Type} [Host ρ] {source : String} {given : CompileOptions} {compilation : Compilation}

namespace Compilation

theorem extensions_outside (compiled : compile source given = .ok compilation) :
    ∀ token ∈ compilation.tokens, token.kind = .reduced → ∀ statement ∈ token.body, statement.kind ≠ .extension := by
  obtain ⟨parsed, stages, _, _, parses, made, _, _, rfl⟩ := compile_ok_iff.mp compiled
  have single := Source.single_of_parse parses
  intro token member kind
  cases choice : given.optimize with
  | false =>
    rw [choice] at made
    cases made
    exact absurd kind (single token member).2
  | true =>
    rw [choice] at made
    obtain ⟨code, reads⟩ := Source.reads_of_parse parses
    obtain ⟨_, _, _, _, fused, rfl, _, counted, straight, reduces, replaced⟩ := Stages.optimized_cases reads single made
    rcases reduced_of_fused reduces counted straight replaced token member with other | ⟨body, shortens⟩
    · exact absurd kind other
    · exact Reduction.not_extension_of_reduceBody shortens

theorem meaning_dump (engine : Engine ρ) (compiled : compile source given = .ok compilation)
    (enabled : .dump ∈ given.extensions) :
    (compilation.meaning engine).extension (some "#") = fun state => .next state.dump := by
  have found := Extension.template?_of_mem (Extension.check_of_compile compiled) enabled
  have options : compilation.options.extensions = given.extensions := by
    rw [options_of_compile compiled]
    rfl
  funext state
  change Extension.perform engine compilation.options.extensions (some Extension.dump.symbol) state = _
  unfold Extension.perform
  rw [options, found]
  exact if_pos rfl

end Compilation

/-- Executing the instruction shows a part of the tape and does nothing else. -/
theorem Config.step_dump {meaning : Meaning ρ} (shows : meaning.extension (some "#") = fun state => .next state.dump)
    {token : Token} (kind : token.kind = .extension) (symbol : token.symbol? = some "#") (rest : Code)
    (after : List Code) (state : State ρ) :
    Config.step meaning ⟨.token token rest, after, state⟩ = .inl ⟨rest, after, state.dump⟩ := by
  obtain ⟨_, _, _, _, _, symbol?⟩ := token
  cases kind
  cases symbol
  simp only [Config.step, Token.perform, shows]

/-- The instruction shows the cells around the pointer, wherever a compiled program comes to it with the pointer
inside the tape, eight cells or more from where the tape begins; nearer to that it shows none. Nothing else is
done: tape, pointer and input stay as they are, and showing is the only call to the surroundings. Other
extensions may do anything but change the size of the tape. The instruction is never part of a reduced loop. -/
theorem dump_shows (compiled : compile source given = .ok compilation) (enabled : .dump ∈ given.extensions)
    {engine : Engine ρ} {meaning : Meaning ρ}
    (dumps : meaning.extension (some "#") = (compilation.meaning engine).extension (some "#")) (sized : meaning.Sized)
    {host : ρ} {start : Config ρ} (started : compilation.start? host = some start)
    {steps : Nat} {token : Token} {rest : Code} {after : List Code} {state : State ρ}
    (reached : start.advance meaning steps = .inl ⟨.token token rest, after, state⟩)
    (kind : token.kind = .extension) (symbol : token.symbol? = some "#") (inside : state.tape.Covers state.pointer) :
    (∃ cells, Config.step meaning ⟨.token token rest, after, state⟩ =
        .inl ⟨rest, after, { state with host := Host.debug cells (state.pointer - Tape.start) state.host }⟩ ∧
      (8 ≤ state.pointer → cells = state.tape.around state.pointer) ∧ (state.pointer < 8 → cells = [])) ∧
    ∀ token ∈ compilation.tokens, token.kind = .reduced → ∀ statement ∈ token.body, statement.kind ≠ .extension := by
  have size : state.tape.size = Tape.fullSize := Compilation.size_reached sized started reached
  have shows := dumps.trans (Compilation.meaning_dump engine compiled enabled)
  refine ⟨⟨_, Config.step_dump shows kind symbol rest after state, Tape.slice_eq_around inside, fun near => ?_⟩,
    Compilation.extensions_outside compiled⟩
  exact Tape.slice_eq_nil inside near (by rw [size]; decide)

/-- The cell to the left of the pointer is set. -/
theorem dump_shows_neighbour : Extension.dump ∈ [Extension.dump] ∧ ∃ compilation start state,
    compile "+>#" { extensions? := some [.dump] } = .ok compilation ∧
      compilation.start? (Collector.ofLines []) = some start ∧ state.tape.Covers state.pointer ∧
      start.advance (compilation.meaning (.emitting 42)) 1 = .inl ⟨.token (.extension "#") .halt, [], state⟩ ∧
      Config.step (compilation.meaning (.emitting 42)) ⟨.token (.extension "#") .halt, [], state⟩ =
        .inl ⟨.halt, [], { state with
          host := ⟨[], #[], #[⟨[0, 0, 0, 0, 0, 0, 0, 1, 0, 0, 0, 0, 0, 0, 0, 0], 1⟩]⟩ }⟩ := by
  let given : CompileOptions := { extensions? := some [.dump] }
  let parsed : List Token := [.single .inc, .single .right, .extension "#"]
  let step : Token := { kind := .addMove, amount := 1, offset := 1 }
  let state : State Collector := ⟨Tape.blank.add Tape.start 1, Tape.start + 1, [], Collector.ofLines []⟩
  have optimized : Stages.optimized parsed =
    .ok ⟨parsed, parsed, parsed, ⟨parsed, 0, 0⟩, [step, .extension "#"]⟩ := rfl
  obtain ⟨compilation, compiled, options, tokens⟩ :=
    @compile_of_stages "+>#" given parsed _ rfl rfl optimized (by decide)
  have enabled : .dump ∈ given.extensions := List.mem_singleton_self _
  have started : compilation.start? (Collector.ofLines []) =
      some ⟨.token step (.token (.extension "#") .halt), [], ⟨.blank, Tape.start, [], Collector.ofLines []⟩⟩ := by
    rw [Compilation.start?, tokens, options]
    rfl
  have reached : Config.advance (compilation.meaning (.emitting 42)) 1
      ⟨.token step (.token (.extension "#") .halt), [], ⟨.blank, Tape.start, [], Collector.ofLines []⟩⟩ =
        .inl ⟨.token (.extension "#") .halt, [], state⟩ := by
    simp [state, step, Config.advance, Config.step, Token.perform, State.add, State.move]
  have covers : state.tape.Covers state.pointer := by
    rw [Tape.Covers, Tape.size_add, Tape.size_blank]
    decide
  have sized : (compilation.meaning (.emitting 42) : Meaning Collector).Sized :=
    Compilation.meaning_sized fun _ _ _ _ => rfl
  obtain ⟨⟨cells, shown, far, _⟩, _⟩ := dump_shows compiled enabled rfl sized started reached rfl rfl covers
  have reads (position : Int) :
      (Tape.blank.add Tape.start 1).read position = if position = Tape.start then 1 else 0 := by
    by_cases here : position = Tape.start
    · simp [Tape.read, Tape.read?_blank Tape.covers_start, here]
    · simpa [Tape.read, here] using Tape.read_blank position
  have window : state.tape.around state.pointer = [0, 0, 0, 0, 0, 0, 0, 1, 0, 0, 0, 0, 0, 0, 0, 0] := by
    rw [Tape.around, Tape.size_add, Tape.size_blank]
    simp only [state, reads]
    rfl
  obtain rfl := (far (by decide)).trans window
  exact ⟨enabled, compilation, _, state, compiled, started, covers, reached, shown⟩

/-- A loop that clears its cell and sets the one to the left, where it goes on. -/
private def walk (rest : Code) : Code := .loop (.token (.single .clear) (.token (.moveAdd (-1) 1) .halt)) rest

private theorem walk_once (meaning : Meaning ρ) (host : ρ) (rest : Code) {position : Int}
    (inside : Tape.blank.Covers position) (steps : Nat) :
    Config.advance meaning (steps + 4) ⟨walk rest, [], ⟨Tape.blank.add position 1, position, [], host⟩⟩ =
      Config.advance meaning steps
        ⟨walk rest, [], ⟨Tape.blank.add (position - 1) 1, position - 1, [], host⟩⟩ := by
  have cleared : Tape.blank.write position 0 = Tape.blank := by
    have same := Tape.blank.write_read position
    rwa [Tape.read_blank] at same
  have set : (Tape.blank.add position 1).isSet position = true := by
    simp [Tape.isSet, Tape.read, Tape.read?_blank inside]
  simp [walk, Config.advance, Config.step, Token.perform, Token.single, Token.counted, Token.moveAdd, State.isSet,
    State.put, State.move, State.add, set, Tape.write_add, cleared, Int.sub_eq_add_neg]

/-- The walk leaves the tape by its first cell, whatever cell it starts at. A step back leads to that cell. -/
private theorem walk_back (meaning : Meaning ρ) (host : ρ) (rest : Code) (position : Nat)
    (inside : position < Tape.fullSize) :
    ∃ steps, Config.advance meaning steps
        ⟨walk (.token (.single .right) rest), [], ⟨Tape.blank.add position 1, position, [], host⟩⟩ =
      .inl ⟨rest, [], ⟨.blank, 0, [], host⟩⟩ := by
  have covers {place : Nat} (inside : place < Tape.fullSize) : Tape.blank.Covers place :=
    Tape.covers_blank_iff.mpr (by omega)
  induction position with
  | zero =>
    refine ⟨2 + 4, ?_⟩
    have outside : Tape.blank.add (-1) 1 = Tape.blank := rfl
    have unset : Tape.blank.isSet (-1) = false := by simp [Tape.isSet, Tape.read_blank]
    rw [walk_once meaning host _ (covers inside)]
    simp [walk, Config.advance, Config.step, Token.perform, Token.single, Token.counted, State.isSet, State.move,
      outside, unset]
  | succ position ih =>
    obtain ⟨steps, walked⟩ := ih (Nat.lt_of_succ_lt inside)
    refine ⟨steps + 4, ?_⟩
    rw [walk_once meaning host _ (covers inside), ← walked]
    simp

/-- Collected dumps tell the cells that were shown. -/
private theorem slice_of_dump {state : State Collector} {cells : List Int32}
    (same : state.dump = { state with host := Host.debug cells (state.pointer - Tape.start) state.host }) :
    state.tape.slice (state.pointer - 8) (state.pointer + 8) = cells := by
  have dumps := congrArg (fun state => state.host.dumps.back?.map (·.cells)) same
  simpa [State.dump, Host.debug, Collector.debug] using dumps

/-- A program that walks to the first cell shows nothing there, though there are eight cells to show. -/
theorem not_always_around :
    ¬∀ (engine : Engine Collector) (source : String) (given : CompileOptions) (compilation : Compilation),
      compile source given = .ok compilation → .dump ∈ given.extensions →
      ∀ (lines : List String) (start : Config Collector) (steps : Nat) (token : Token) (rest : Code)
        (after : List Code) (state : State Collector),
        compilation.start? (.ofLines lines) = some start →
        start.advance (compilation.meaning engine) steps = .inl ⟨.token token rest, after, state⟩ →
        token.kind = .extension → token.symbol? = some "#" → state.tape.Covers state.pointer →
        Config.step (compilation.meaning engine) ⟨.token token rest, after, state⟩ = .inl ⟨rest, after, { state with
          host := Host.debug (state.tape.around state.pointer) (state.pointer - Tape.start) state.host }⟩ := by
  intro always
  let given : CompileOptions := { extensions? := some [.dump] }
  let parsed : List Token := [.single .inc, .single .loopOpen, .single .clear, .single .left, .single .inc,
    .single .loopClose, .single .right, .extension "#"]
  let fused : List Token := [.single .inc, .single .loopOpen, .single .clear, .moveAdd (-1) 1, .single .loopClose,
    .single .right, .extension "#"]
  let code : Code := .token (.single .inc) (walk (.token (.single .right) (.token (.extension "#") .halt)))
  have optimized : Stages.optimized parsed = .ok ⟨parsed, parsed, parsed, ⟨parsed, 0, 1⟩, fused⟩ := rfl
  obtain ⟨compilation, compiled, options, tokens⟩ :=
    @compile_of_stages "+[[-]<+]>#" given parsed _ rfl rfl optimized (by decide)
  have started : compilation.start? (Collector.ofLines []) =
      some ⟨code, [], ⟨.blank, Tape.start, [], Collector.ofLines []⟩⟩ := by
    rw [Compilation.start?, tokens, options]
    rfl
  obtain ⟨steps, walked⟩ :=
    walk_back (compilation.meaning (.emitting 42)) (Collector.ofLines []) (.token (.extension "#") .halt)
    Tape.start (by decide)
  have reached : Config.advance (compilation.meaning (.emitting 42)) (steps + 1)
      ⟨code, [], ⟨.blank, Tape.start, [], Collector.ofLines []⟩⟩ =
        .inl ⟨.token (.extension "#") .halt, [], ⟨.blank, 0, [], Collector.ofLines []⟩⟩ := by
    rw [← walked]
    simp [code, Config.advance, Config.step, Token.perform, Token.single, Token.counted, State.add]
  have covers : Tape.blank.Covers 0 := Tape.covers_blank_iff.mpr (by decide)
  have enabled : .dump ∈ given.extensions := List.mem_singleton_self _
  have claimed :=
    always (.emitting 42) _ given compilation compiled enabled [] _ _ _ _ _ _ started reached rfl rfl covers
  rw [Config.step_dump (Compilation.meaning_dump _ compiled enabled) rfl rfl] at claimed
  obtain ⟨_, _, same⟩ := Config.mk.inj (Sum.inl.inj claimed)
  have shown := slice_of_dump same
  have none : Tape.blank.slice (0 - 8) (0 + 8) = [] :=
    Tape.slice_eq_nil covers (by decide) (by rw [Tape.size_blank]; decide)
  have eight : (Tape.blank.around 0).length = 8 := by simp [Tape.around, Tape.size_blank, Tape.fullSize]
  rw [← shown, none] at eight
  cases eight

end TapeScript
