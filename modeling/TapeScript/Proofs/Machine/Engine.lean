import TapeScript.Proofs.Compilation

/-! Programs under an engine. Only a program that holds statements of users depends on it, and it does so by
those statements alone unless its script is run as a whole. -/
namespace TapeScript

variable {ρ : Type} [Host ρ] {engine : Engine ρ} {compilation : Compilation}

/-- A symbol does nothing, shows the cells around the pointer, or does what a user has written. -/
theorem Extension.perform_cases (engine : Engine ρ) (extensions : List Extension) (symbol? : Option String)
    (state : State ρ) :
    perform engine extensions symbol? state = .next state ∨
      perform engine extensions symbol? state = .next state.dump ∨
      ∃ extension ∈ extensions, extension.template ≠ Script.dump ∧
        perform engine extensions symbol? state = engine.execute extension.template state := by
  rw [perform]
  cases found : template? extensions symbol? with
  | none => exact .inl rfl
  | some template =>
    obtain ⟨extension, first, rfl⟩ := Option.map_eq_some_iff.mp found
    dsimp only
    split
    · exact .inr (.inl rfl)
    · exact .inr (.inr ⟨extension, List.mem_of_find?_eq_some first, ‹_›, rfl⟩)

/-- What holds of every step that an extension can take holds of the meaning of a program. -/
theorem Compilation.meaning_forall (property : State ρ → Step ρ → Prop) (stays : ∀ state, property state (.next state))
    (shows : ∀ state : State ρ, property state (.next state.dump))
    (users : ∀ extension ∈ compilation.options.extensions, extension.template ≠ Script.dump →
      ∀ state, property state (engine.execute extension.template state)) :
    ∀ symbol? state, property state ((compilation.meaning engine).extension symbol? state) := by
  intro symbol? state
  change property state (Extension.perform engine compilation.options.extensions symbol? state)
  rcases Extension.perform_cases engine compilation.options.extensions symbol? state with
    same | same | ⟨extension, member, apart, same⟩
  · rw [same]
    exact stays state
  · rw [same]
    exact shows state
  · rw [same]
    exact users extension member apart state

namespace Compilation

theorem holdsStatements_of_plain (plain : compilation.options.extensions = []) :
    compilation.holdsStatements = false := by
  simp [holdsStatements, plain, Extension.template?]

/-- A program without statements of users is run step by step, and any other one if the engine lets it. -/
theorem run?_stepwise (stepwise : compilation.holdsStatements = false ∨ engine.isWhole compilation.script = false)
    (fuel : Nat) (host : ρ) :
    compilation.run? engine fuel host =
      (compilation.start? host).bind fun config => config.run? (compilation.meaning engine) fuel := by
  have stepped : (compilation.holdsStatements && engine.isWhole compilation.script) = false :=
    (Bool.and_eq_false_iff).mpr stepwise
  rw [run?, stepped]
  rfl

end Compilation

/-- An engine to which every statement puts out the same number. -/
def Engine.emitting (value : Int) : Engine ρ := .ofStatements fun _ state => .next (state.emit value)

/-- A program that is a single statement of a user. -/
theorem exists_statement {given : CompileOptions} (plain : given.optimize = false)
    (extensions : given.extensions = [⟨"!", "rt.write(42);"⟩]) :
    ∃ compilation, compile "!" given = .ok compilation ∧ compilation.options = given.withDefaults ∧
      compilation.tokens = [.extension "!"] := by
  have accepted : Extension.check given.extensions = .ok () := by
    rw [extensions]
    rfl
  obtain ⟨raw, grows⟩ := Source.exists_grows given.extensions "!"
  obtain ⟨compilation, compiled, options, _⟩ :=
    compile_ok given accepted grows (fun choice => by simp [plain] at choice)
  have parses := (tokens_of_plain plain compiled).1
  rw [extensions] at parses
  exact ⟨compilation, compiled, options, (Except.ok.inj parses).symm⟩

theorem Compilation.run?_emitting (given : CompileOptions) (extensions : given.extensions = [⟨"!", "rt.write(42);"⟩])
    (options : compilation.options = given.withDefaults) (tokens : compilation.tokens = [.extension "!"]) (host : ρ) :
    compilation.run? (.emitting 42) 2 host = some (.ended ((State.start given.input? host).emit 42)) := by
  have listed : compilation.options.extensions = [⟨"!", "rt.write(42);"⟩] := by rw [options]; exact extensions
  have users : "rt.write(42);" ≠ Script.dump := by decide
  have executes (state : State ρ) :
      (compilation.meaning (.emitting 42)).extension (some "!") state = .next (state.emit 42) := by
    simp [meaning, Extension.perform, Extension.template?, listed, users, Engine.emitting, Engine.ofStatements]
  rw [run?_stepwise (.inr rfl), start?, tokens, options]
  simp [Code.ofTokens?, Code.prepend, Token.extension, Config.run?, Config.advance, Config.step, Token.perform,
    executes]
  rfl

end TapeScript
