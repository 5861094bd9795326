import TapeScript.Command
import TapeScript.Proofs.Compilation

/-! The compile options that flags ask for. They are refused only for an end of input without a meaning, and
for definitions of extensions whose first equals sign is not their second code unit. -/
namespace TapeScript

theorem EndOfInput.ofName?_eq_some {text : String} {mode : EndOfInput} :
    ofName? text = some mode ↔ mode.name = text := by
  constructor
  · intro found
    simpa using List.find?_some found
  · rintro rfl
    cases mode <;> decide

namespace Text

/-- No other character has the unit of an equals sign, surrogates included. -/
theorem equals_mem_units {c : Char} : 61 ∈ charUnits c ↔ c = '=' := by
  constructor
  · intro member
    have bound : c.toNat < 0x110000 := by
      rcases c.valid with low | ⟨_, high⟩ <;> simp only [Char.toNat] <;> omega
    have unit (code : Nat) (small : code < 65536) (same : 61 = UInt16.ofNat code) : code = 61 := by
      have numbers := congrArg UInt16.toNat same
      rw [UInt16.toNat_ofNat_of_lt' small] at numbers
      exact numbers.symm
    simp only [charUnits] at member
    split at member
    · have code := unit c.toNat ‹_› (List.mem_singleton.mp member)
      exact Char.toNat_inj.mp code
    · rcases List.mem_cons.mp member with high | low
      · have code := unit _ (by omega) high
        omega
      · have code := unit _ (by omega) (List.mem_singleton.mp low)
        omega
  · rintro rfl
    decide

theorem charUnits_cons (c : Char) : ∃ unit more, charUnits c = unit :: more := by
  simp only [charUnits]
  split
  · exact ⟨_, [], rfl⟩
  · exact ⟨_, [_], rfl⟩

/-- The first equals sign stands second exactly if it follows on another character of one unit. -/
theorem equals_second_iff {text : String} : (units text).idxOf? 61 = some 1 ↔
    ∃ c rest, text.toList = c :: '=' :: rest ∧ c ≠ '=' ∧ (charUnits c).length = 1 := by
  have equals : charUnits '=' = [61] := by decide
  constructor
  · intro position
    rw [units] at position
    cases chars : text.toList with
    | nil => simp [chars] at position
    | cons c rest =>
      obtain ⟨unit, more, first⟩ := charUnits_cons c
      rw [chars, List.flatMap_cons, first, List.cons_append, List.idxOf?_cons] at position
      have apart : unit ≠ 61 := by
        rintro rfl
        simp at position
      have other : c ≠ '=' := by
        rintro rfl
        exact apart (List.cons.inj (first.symm.trans equals)).1
      cases more with
      | cons second more =>
        have second : second = 61 := by simpa [apart, List.idxOf?_cons] using position
        exact absurd (equals_mem_units.mp (by simp [first, second])) other
      | nil =>
        cases rest with
        | nil => simp [apart] at position
        | cons next rest =>
          obtain ⟨second, more, units⟩ := charUnits_cons next
          have second : second = 61 := by simpa [apart, units, List.idxOf?_cons] using position
          have sign : next = '=' := equals_mem_units.mp (by simp [units, second])
          exact ⟨c, rest, by rw [sign], other, by rw [first]; rfl⟩
  · rintro ⟨c, rest, chars, other, length⟩
    obtain ⟨unit, single⟩ := List.length_eq_one_iff.mp length
    have apart : unit ≠ 61 := by
      rintro rfl
      exact other (equals_mem_units.mp (by simp [single]))
    simp [units, chars, single, equals, List.idxOf?_cons, apart]

end Text

/-- The text that defines an extension on the command line. -/
def Extension.definition (extension : Extension) : String := extension.symbol ++ "=" ++ extension.template

namespace Command

/-- An extension is read from its definition, and from no text whose first equals sign is elsewhere. -/
theorem extensionOf_ok_iff {definition : String} {extension : Extension} :
    extensionOf definition = .ok extension ↔ extension.definition = definition ∧
      Text.length16 extension.symbol = 1 ∧ (Text.units definition).idxOf? 61 = some 1 := by
  constructor
  · intro made
    rw [extensionOf] at made
    split at made
    · rename_i symbol template chars
      split at made
      · cases made
      · rename_i sound
        obtain ⟨other, single⟩ := not_or.mp sound
        have single : (Text.charUnits symbol).length = 1 := Classical.not_not.mp single
        cases made
        refine ⟨?_, by simpa [Text.length16, Text.units] using single,
          Text.equals_second_iff.mpr ⟨symbol, template, chars, other, single⟩⟩
        apply String.toList_inj.mp
        simp [Extension.definition, chars]
    · cases made
  · rintro ⟨rfl, single, position⟩
    obtain ⟨c, rest, chars, other, unit⟩ := Text.equals_second_iff.mp position
    have split : extension.symbol.toList ++ '=' :: extension.template.toList = c :: '=' :: rest := by
      rw [← chars]
      simp [Extension.definition]
    have symbol : extension.symbol = String.singleton c := by
      apply Extension.symbol_eq single
      cases letters : extension.symbol.toList with
      | nil => simp [Text.length16, Text.units, letters] at single
      | cons first more =>
        rw [letters] at split
        simp [(List.cons.inj split).1]
    obtain ⟨symbol', template⟩ := extension
    subst symbol
    have template : template.toList = rest := by simpa using split
    simp [extensionOf, chars, other, unit, ← template]

/-- What compile options have to be for the flags they come from. -/
structure Requested (settings : Settings) (options : CompileOptions) : Prop where
  input : options.input? = settings.input?.map .text
  eof : options.eof?.map (·.name) = settings.eof?
  optimize : options.optimize? = some settings.optimize
  verbose : options.verbose? = some settings.debug
  definitions : ∀ definition ∈ settings.extensions, (Text.units definition).idxOf? 61 = some 1
  extensions : ∃ added : List Extension, added.map (·.definition) = settings.extensions ∧
    (∀ extension ∈ added, Text.length16 extension.symbol = 1) ∧
    options.extensions? = some (added ++ if settings.dump then [Extension.dump] else [])

theorem mapM_extensionOf {definitions : List String} {added : List Extension} :
    definitions.mapM extensionOf = .ok added ↔ added.map (·.definition) = definitions ∧
      (∀ extension ∈ added, Text.length16 extension.symbol = 1) ∧
      ∀ definition ∈ definitions, (Text.units definition).idxOf? 61 = some 1 := by
  induction definitions generalizing added with
  | nil => cases added <;> simp [pure, Except.pure]
  | cons definition definitions ih =>
    have both : (definition :: definitions).mapM extensionOf = .ok added ↔ ∃ first later, added = first :: later ∧
        extensionOf definition = .ok first ∧ definitions.mapM extensionOf = .ok later := by
      rw [List.mapM_cons]
      cases extensionOf definition <;> cases definitions.mapM extensionOf <;>
        simp [bind, Except.bind, pure, Except.pure, eq_comm]
    rw [both]
    constructor
    · rintro ⟨first, later, rfl, made, others⟩
      obtain ⟨rfl, single, position⟩ := extensionOf_ok_iff.mp made
      obtain ⟨rfl, singles, positions⟩ := ih.mp others
      exact ⟨rfl, by simpa using ⟨single, singles⟩, by simpa using ⟨position, by simpa using positions⟩⟩
    · rintro ⟨same, singles, positions⟩
      cases added with
      | nil => cases same
      | cons first later =>
        obtain ⟨rfl, rfl⟩ := List.cons.inj same
        refine ⟨first, later, rfl, extensionOf_ok_iff.mpr ⟨rfl, singles _ (by simp), positions _ (by simp)⟩,
          ih.mpr ⟨rfl, fun extension member => singles extension (by simp [member]),
            fun definition member => positions definition (by simp [member])⟩⟩

theorem options_ok_iff {settings : Settings} {options : CompileOptions} :
    settings.options = .ok options ↔ Requested settings options := by
  have mode : ∀ eof? : Option EndOfInput, settings.eof?.mapM endOfInputOf = .ok eof? ↔
      eof?.map (·.name) = settings.eof? := by
    intro eof?
    cases settings.eof? with
    | none => cases eof? <;> simp [pure, Except.pure]
    | some text =>
      cases found : EndOfInput.ofName? text with
      | none =>
        have unknown : ∀ mode : EndOfInput, mode.name ≠ text := fun mode same => by
          simp [EndOfInput.ofName?_eq_some.mpr same] at found
        cases eof? <;> simp [endOfInputOf, found, unknown, Functor.map, Except.map]
      | some mode =>
        have named (other : EndOfInput) : mode = other ↔ other.name = text := by
          rw [← EndOfInput.ofName?_eq_some, found, Option.some_inj]
        cases eof? <;> simp [endOfInputOf, found, named, Functor.map, Except.map]
  constructor
  · intro made
    rw [Settings.options] at made
    cases eof : settings.eof?.mapM endOfInputOf with
    | error => simp [eof, bind, Except.bind] at made
    | ok eof? =>
      cases read : settings.extensions.mapM extensionOf with
      | error => simp [eof, read, bind, Except.bind] at made
      | ok added =>
        simp only [eof, read, bind, Except.bind] at made
        cases made
        obtain ⟨defined, singles, positions⟩ := mapM_extensionOf.mp read
        exact ⟨rfl, (mode eof?).mp eof, rfl, rfl, positions, added, defined, singles, rfl⟩
  · rintro ⟨input, eof, optimize, verbose, positions, added, defined, singles, extensions⟩
    have read := mapM_extensionOf.mpr ⟨defined, singles, positions⟩
    obtain ⟨input?, extensions?, eof?, optimize?, verbose?⟩ := options
    simp only at input eof optimize verbose extensions
    rw [Settings.options, (mode eof?).mpr eof, read, input, optimize, verbose, extensions]
    rfl

/-- Nothing else that flags ask for is refused. -/
theorem exists_requested_iff {settings : Settings} : (∃ options, Requested settings options) ↔
    (∀ text, settings.eof? = some text → ∃ mode : EndOfInput, mode.name = text) ∧
      ∀ definition ∈ settings.extensions, (Text.units definition).idxOf? 61 = some 1 := by
  constructor
  · rintro ⟨options, requested⟩
    refine ⟨fun text given => ?_, requested.definitions⟩
    have named := requested.eof.trans given
    obtain ⟨mode, _, same⟩ := Option.map_eq_some_iff.mp named
    exact ⟨mode, same⟩
  · rintro ⟨modes, positions⟩
    have added : ∃ added : List Extension, added.map (·.definition) = settings.extensions ∧
        ∀ extension ∈ added, Text.length16 extension.symbol = 1 := by
      generalize settings.extensions = definitions at positions
      induction definitions with
      | nil => exact ⟨[], rfl, by simp⟩
      | cons definition definitions ih =>
        obtain ⟨c, rest, chars, _, single⟩ := Text.equals_second_iff.mp (positions definition (by simp))
        obtain ⟨added, defined, singles⟩ := ih fun other member => positions other (by simp [member])
        refine ⟨⟨String.singleton c, String.ofList rest⟩ :: added, ?_, ?_⟩
        · rw [List.map_cons, defined]
          have first : Extension.definition ⟨String.singleton c, String.ofList rest⟩ = definition := by
            apply String.toList_inj.mp
            simp [Extension.definition, chars]
          rw [first]
        · simpa [Text.length16, Text.units, single] using singles
    have eof : ∃ eof? : Option EndOfInput, eof?.map (·.name) = settings.eof? := by
      cases given : settings.eof? with
      | none => exact ⟨none, rfl⟩
      | some text =>
        obtain ⟨mode, same⟩ := modes text given
        exact ⟨some mode, by simp [same]⟩
    obtain ⟨added, defined, singles⟩ := added
    obtain ⟨eof?, eof⟩ := eof
    exact ⟨⟨settings.input?.map .text, some (added ++ if settings.dump then [Extension.dump] else []), eof?,
      some settings.optimize, some settings.debug⟩, rfl, eof, rfl, rfl, positions, added, defined, singles, rfl⟩

end Command
end TapeScript
