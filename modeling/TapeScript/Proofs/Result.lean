import TapeScript.Error

/-! Results that may be errors: what a sequence of steps comes to, and which causes it can fail for. -/
namespace TapeScript

variable {α β : Type}

/-- A sequence succeeds if each of its steps does. -/
theorem bind_ok_iff {result : Except Error α} {next : α → Except Error β} {last : β} :
    (result >>= next) = .ok last ↔ ∃ value, result = .ok value ∧ next value = .ok last := by
  cases result <;> simp [bind, Except.bind]

/-- The causes for which some stage of compilation gives up. -/
def Error.ofStage : Error → Bool
  | .assertion | .unbalancedLoop | .noInverse _ | .unknownKind _ | .noTemplate _ => true
  | .symbolLength _ | .coreSymbol _ | .duplicateSymbol _ | .evenInverse => true
  | _ => false

/-- A result that fails, if it fails, for a cause of the stages. -/
def Staged (result : Except Error α) : Prop := ∀ error, result = .error error → error.ofStage = true

namespace Staged

theorem ok (value : α) : Staged (.ok value) := nofun

theorem error {cause : Error} (stage : cause.ofStage = true) : Staged (.error cause : Except Error α) := by
  rintro _ ⟨⟩
  exact stage

theorem bind {result : Except Error α} {next : α → Except Error β} (first : Staged result)
    (later : ∀ value, Staged (next value)) : Staged (result >>= next) := by
  cases result with
  | error cause =>
    rintro _ ⟨⟩
    exact first cause rfl
  | ok value => exact later value

theorem require {condition : Bool} {cause : Error} (stage : cause.ofStage = true) :
    Staged (Error.require condition cause) := by
  unfold Error.require
  split
  · exact .ok ()
  · exact .error stage

theorem ite {condition : Prop} [Decidable condition] {first second : Except Error α} (holds : Staged first)
    (fails : Staged second) : Staged (if condition then first else second) := by
  split
  · exact holds
  · exact fails

theorem foldlM {step : β → α → Except Error β} (each : ∀ state item, Staged (step state item)) (items : List α)
    (state : β) : Staged (items.foldlM step state) := by
  induction items generalizing state with
  | nil => exact .ok state
  | cons item items ih =>
    rw [List.foldlM_cons]
    exact (each state item).bind ih

end Staged

end TapeScript
