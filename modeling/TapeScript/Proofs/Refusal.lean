import TapeScript.Proofs.Compilation

/-! What compilation refuses. The rules on extensions are all that can be broken: no source text makes a
stage fail, and the first extension that breaks a rule decides the error. -/
namespace TapeScript

namespace Extension

def IsCore (symbol : String) : Prop := ∃ c ∈ coreSymbols.toList, String.singleton c = symbol

/-- An extension breaks a rule where it stands, after some others. The error is that of the first rule it
breaks. -/
inductive Breaks (earlier : List Extension) (extension : Extension) : Error → Prop where
  | length (several : Text.length16 extension.symbol ≠ 1) :
      Breaks earlier extension (.symbolLength extension.symbol)
  | core (single : Text.length16 extension.symbol = 1) (core : IsCore extension.symbol) :
      Breaks earlier extension (.coreSymbol extension.symbol)
  | duplicate (single : Text.length16 extension.symbol = 1) (added : ¬IsCore extension.symbol)
      (again : ∃ other ∈ earlier, other.symbol = extension.symbol) :
      Breaks earlier extension (.duplicateSymbol extension.symbol)

/-- Every extension of a list keeps the rules where it stands. -/
def Sound (extensions : List Extension) : Prop :=
  ∀ earlier extension later error, extensions = earlier ++ extension :: later → ¬Breaks earlier extension error

variable {earlier later : List Extension} {extension : Extension} {error : Error}

theorem Breaks.unique {other : Error} (breaks : Breaks earlier extension error)
    (breaksOther : Breaks earlier extension other) : error = other := by
  cases breaks with
  | length several =>
    cases breaksOther with
    | length => rfl
    | core single | duplicate single => exact absurd single several
  | core single core =>
    cases breaksOther with
    | length several => exact absurd single several
    | core => rfl
    | duplicate _ added => exact absurd core added
  | duplicate single added =>
    cases breaksOther with
    | length several => exact absurd single several
    | core _ core => exact absurd core added
    | duplicate => rfl

theorem exists_breaks_iff : (∃ error, Breaks earlier extension error) ↔
    Text.length16 extension.symbol ≠ 1 ∨ IsCore extension.symbol ∨
      ∃ other ∈ earlier, other.symbol = extension.symbol := by
  constructor
  · rintro ⟨_, several | ⟨_, core⟩ | ⟨_, _, again⟩⟩
    · exact .inl several
    · exact .inr (.inl core)
    · exact .inr (.inr again)
  · intro broken
    by_cases single : Text.length16 extension.symbol = 1
    · by_cases core : IsCore extension.symbol
      · exact ⟨_, .core single core⟩
      · refine ⟨_, .duplicate single core ?_⟩
        rcases broken with several | core' | again
        · exact absurd single several
        · exact absurd core' core
        · exact again
    · exact ⟨_, .length single⟩

/-- The symbols of extensions as the check holds them, last first. -/
private def symbols (extensions : List Extension) : List String := (extensions.map (·.symbol)).reverse

private theorem checkAfter_cons (earlier : List Extension) (extension : Extension) (later : List Extension) :
    (∃ error, Breaks earlier extension error ∧ checkAfter (symbols earlier) (extension :: later) = .error error) ∨
      (∀ error, ¬Breaks earlier extension error) ∧
        checkAfter (symbols earlier) (extension :: later) = checkAfter (symbols (earlier ++ [extension])) later := by
  have core_iff : coreSymbols.toList.any (String.singleton · == extension.symbol) = true ↔ IsCore extension.symbol := by
    simp [IsCore]
  have again_iff : (symbols earlier).contains extension.symbol = true ↔
      ∃ other ∈ earlier, other.symbol = extension.symbol := by
    simp [symbols]
  by_cases single : Text.length16 extension.symbol = 1
  · by_cases core : IsCore extension.symbol
    · refine .inl ⟨_, .core single core, ?_⟩
      simp [checkAfter, Error.require, single, core_iff.mpr core, bind, Except.bind]
    · have added := mt core_iff.mp core
      by_cases again : ∃ other ∈ earlier, other.symbol = extension.symbol
      · refine .inl ⟨_, .duplicate single core again, ?_⟩
        have seen := again_iff.mpr again
        simp only [checkAfter, Error.require, single, added, seen, bind, Except.bind]
        rfl
      · have fresh := mt again_iff.mp again
        refine .inr ⟨fun error breaks => ?_, ?_⟩
        · rcases breaks with several | ⟨_, core'⟩ | ⟨_, _, again'⟩
          · exact several single
          · exact core core'
          · exact again again'
        · have push : symbols (earlier ++ [extension]) = extension.symbol :: symbols earlier := by simp [symbols]
          rw [push]
          simp only [checkAfter, Error.require, single, added, fresh, bind, Except.bind]
          rfl
  · refine .inl ⟨_, .length single, ?_⟩
    simp [checkAfter, Error.require, single, bind, Except.bind]

/-- The check finds the first extension that breaks a rule. The induction is on what is left of the list,
with the extensions before it fixed as those that were passed. -/
private theorem checkAfter_error_iff (earlier rest : List Extension) (error : Error) :
    checkAfter (symbols earlier) rest = .error error ↔
      ∃ passed extension later, rest = passed ++ extension :: later ∧
        (∀ before other after error, passed = before ++ other :: after → ¬Breaks (earlier ++ before) other error) ∧
        Breaks (earlier ++ passed) extension error := by
  induction rest generalizing earlier with
  | nil => simp [checkAfter]
  | cons extension rest ih =>
    rcases checkAfter_cons earlier extension rest with ⟨found, breaks, refused⟩ | ⟨keeps, goes⟩
    · rw [refused]
      constructor
      · intro same
        cases same
        exact ⟨[], extension, rest, rfl, by simp, by simpa using breaks⟩
      · rintro ⟨passed, other, later, split, sound, breaksOther⟩
        cases passed with
        | nil =>
          obtain ⟨rfl, rfl⟩ := List.cons.inj split
          rw [List.append_nil] at breaksOther
          rw [breaks.unique breaksOther]
        | cons first passed =>
          obtain ⟨rfl, rfl⟩ := List.cons.inj split
          exact absurd (by simpa using breaks) (sound [] _ passed found rfl)
    · rw [goes, ih]
      constructor
      · rintro ⟨passed, other, later, rfl, sound, breaks⟩
        refine ⟨extension :: passed, other, later, rfl, ?_, by simpa using breaks⟩
        intro before another after found split
        cases before with
        | nil =>
          obtain ⟨rfl, _⟩ := List.cons.inj split
          simpa using keeps found
        | cons first before =>
          obtain ⟨rfl, rfl⟩ := List.cons.inj split
          simpa using sound before another after found rfl
      · rintro ⟨passed, other, later, split, sound, breaks⟩
        cases passed with
        | nil =>
          obtain ⟨rfl, rfl⟩ := List.cons.inj split
          exact absurd (by simpa using breaks) (keeps error)
        | cons first passed =>
          obtain ⟨rfl, rfl⟩ := List.cons.inj split
          refine ⟨passed, other, later, rfl, fun before another after found same => ?_, by simpa using breaks⟩
          simpa using sound (extension :: before) another after found (by rw [same]; rfl)

private theorem sound_of_checkAfter (earlier rest : List Extension)
    (accepted : checkAfter (symbols earlier) rest = .ok ()) :
    ∀ before extension after error, rest = before ++ extension :: after →
      ¬Breaks (earlier ++ before) extension error := by
  induction rest generalizing earlier with
  | nil => simp
  | cons first rest ih =>
    rcases checkAfter_cons earlier first rest with ⟨found, _, refused⟩ | ⟨keeps, goes⟩
    · rw [refused] at accepted
      cases accepted
    · intro before extension after error split
      cases before with
      | nil =>
        obtain ⟨rfl, rfl⟩ := List.cons.inj split
        simpa using keeps error
      | cons head before =>
        obtain ⟨rfl, rfl⟩ := List.cons.inj split
        have keepsLater := ih (earlier ++ [first]) (goes ▸ accepted) before extension after error rfl
        rwa [List.append_assoc] at keepsLater

theorem check_error_iff (extensions : List Extension) (error : Error) :
    check extensions = .error error ↔
      ∃ earlier extension later, extensions = earlier ++ extension :: later ∧ Sound earlier ∧
        Breaks earlier extension error := by
  simpa [check, Sound, symbols] using checkAfter_error_iff [] extensions error

theorem sound_of_check {extensions : List Extension} (accepted : check extensions = .ok ()) : Sound extensions := by
  intro earlier extension later error split
  simpa using sound_of_checkAfter [] extensions accepted earlier extension later error split

end Extension

/-- Compilation fails on no source text. It fails only if the extensions are refused, that is if some symbol
is not a single character, is an instruction of every program, or is one that came before; the error is that
of the first extension of which this holds. None of the stages gives up: their errors would be among those
of compilation, and the one that cancellation passes over cannot arise. -/
theorem compile_error_iff (source : String) (given : CompileOptions)
    (short : given.optimize = true → source.length < UInt32.size) :
    (∀ error, compile source given = .error error ↔ Extension.check given.extensions = .error error) ∧
    (∀ error, compile source given = .error error ↔
      ∃ earlier extension later, given.extensions = earlier ++ extension :: later ∧ Extension.Sound earlier ∧
        Extension.Breaks earlier extension error) ∧
    ((∃ error, compile source given = .error error) ↔
      ∃ earlier extension later, given.extensions = earlier ++ extension :: later ∧
        (Text.length16 extension.symbol ≠ 1 ∨ Extension.IsCore extension.symbol ∨
          ∃ other ∈ earlier, other.symbol = extension.symbol)) ∧
    ∀ token : Token, token.isFoldable = true → ∃ inverse, token.kind.inverse = .ok inverse := by
  have refused (error : Error) :
      compile source given = .error error ↔ Extension.check given.extensions = .error error := by
    cases accepted : Extension.check given.extensions with
    | ok =>
      obtain ⟨raw, grows⟩ := Source.exists_grows given.extensions source
      obtain ⟨compilation, compiled, _⟩ := compile_ok given accepted grows short
      rw [compiled]
      exact ⟨nofun, nofun⟩
    | error found =>
      have extensions : given.withDefaults.extensions = given.extensions := rfl
      simp [compile, Source.parse, extensions, accepted, bind, Except.bind]
  refine ⟨refused, fun error => (refused error).trans (Extension.check_error_iff _ _), ?_, ?_⟩
  · constructor
    · rintro ⟨error, failed⟩
      obtain ⟨earlier, extension, later, split, _, breaks⟩ :=
        (Extension.check_error_iff _ _).mp ((refused error).mp failed)
      exact ⟨earlier, extension, later, split, Extension.exists_breaks_iff.mp ⟨error, breaks⟩⟩
    · rintro ⟨earlier, extension, later, split, broken⟩
      obtain ⟨error, breaks⟩ := Extension.exists_breaks_iff.mpr broken
      cases accepted : Extension.check given.extensions with
      | ok => exact absurd breaks (Extension.sound_of_check accepted earlier extension later error split)
      | error found => exact ⟨found, (refused found).mpr accepted⟩
  · intro token foldable
    obtain ⟨inverse, inverted, _⟩ := Cancellation.foldable_inverse foldable
    exact ⟨inverse, inverted⟩

/-- Stray brackets do not matter; a symbol that is an instruction does, before one that comes twice. -/
theorem compile_error_iff_core :
    compile "][-.#+[" { extensions? := some [.dump, ⟨"+", ""⟩, .dump] } = .error (.coreSymbol "+") ∧
      ∀ error, compile "][-.#+[" { extensions? := some [.dump] } ≠ .error error := by
  constructor
  · exact ((compile_error_iff _ { extensions? := some [.dump, ⟨"+", ""⟩, .dump] } (by decide)).1 _).mpr rfl
  · intro error failed
    have accepted := ((compile_error_iff _ { extensions? := some [.dump] } (by decide)).1 error).mp failed
    cases accepted

end TapeScript
