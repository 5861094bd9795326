import TapeScript.Proofs.Machine

/-! Streams run on their own. A stream can be run from any state, wherever its pointer is, and two streams
do the same if they end from the same states, each in the same way. -/
namespace TapeScript.Token

variable {ρ : Type} [Host ρ] {meaning : Meaning ρ} {tokens : List Token} {code : Code} {state : State ρ}
  {outcome other : Outcome ρ}

/-- The machine runs a stream from a state to this end. -/
def Ends (meaning : Meaning ρ) (tokens : List Token) (state : State ρ) (outcome : Outcome ρ) : Prop :=
  ∃ code fuel, Code.ofTokens? tokens = some code ∧ Config.run? meaning fuel ⟨code, [], state⟩ = some outcome

/-- A stream ends as its tree tells. -/
theorem ends_iff (reads : Reads tokens code) :
    Ends meaning tokens state outcome ↔
      ∃ whole : Behaviour ρ, code.Runs Code.Unguarded meaning 0 state whole ∧ whole.outcome = outcome := by
  constructor
  · rintro ⟨found, fuel, same, ran⟩
    obtain rfl := Option.some.inj (reads.ofTokens?.symm.trans same)
    obtain ⟨whole, runs, outcome, _⟩ := Config.runs_of_ends ran fun _ _ _ => trivial
    exact ⟨whole, runs, outcome⟩
  · rintro ⟨whole, runs, rfl⟩
    obtain ⟨enough, found⟩ := Config.ends_of_runs runs
    exact ⟨code, enough, reads.ofTokens?, (found enough (Nat.le_refl _)).1⟩

theorem Ends.unique (ends : Ends meaning tokens state outcome) (endsOther : Ends meaning tokens state other) :
    outcome = other := by
  obtain ⟨code, fuel, found, ran⟩ := ends
  obtain ⟨again, more, foundAgain, ranOther⟩ := endsOther
  obtain rfl := Option.some.inj (found.symm.trans foundAgain)
  exact Config.run?_unique ran ranOther

/-- Streams end in the same ways if their trees do the same. -/
theorem ends_congr {others : List Token} {codeOther : Code} (reads : Reads tokens code)
    (readsOther : Reads others codeOther)
    (same : code.Runs Code.Unguarded meaning 0 state = codeOther.Runs Code.Unguarded meaning 0 state) :
    Ends meaning tokens state outcome ↔ Ends meaning others state outcome := by
  rw [ends_iff reads, ends_iff readsOther, same]

/-- A single token ends with what it does. -/
theorem ends_single {token : Token} (plain : token.isMarker = false) :
    Ends meaning [token] state outcome ↔ (token.act meaning 0 state).outcome = outcome := by
  have alone (whole : Behaviour ρ) :
      (Code.token token .halt).Runs Code.Unguarded meaning 0 state whole ↔ whole = token.act meaning 0 state :=
    Behaviour.leads_stay_iff
  rw [ends_iff (.token plain .halt)]
  simp only [alone, exists_eq_left]

end TapeScript.Token
