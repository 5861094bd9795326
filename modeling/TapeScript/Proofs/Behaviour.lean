import TapeScript.Proofs.Code

/-! What a program does, told along its tree. A derivation stands for a run that comes to an end; a
program that does not end has none. Loops are told by the relation of their bodies alone, so code
with equal parts does the same. -/
namespace TapeScript

/-- An extension as it is executed: its symbol, how many extensions of the stream come after it, and
the tape and the pointer it meets. The number tells the occurrences of one symbol apart. -/
structure Occurrence where
  symbol? : Option String
  following : Nat
  tape : Tape
  pointer : Int

/-- Where some code leads, and the extensions executed on the way. -/
structure Behaviour (ρ : Type) where
  occurrences : List Occurrence
  step : Step ρ

namespace Behaviour

variable {ρ : Type}

/-- Go on with a state, nothing being executed. -/
def stay (state : State ρ) : Behaviour ρ := ⟨[], .next state⟩

/-- One behaviour after another, unless the first is the last. -/
def bind (first : Behaviour ρ) (next : State ρ → Behaviour ρ) : Behaviour ρ :=
  match first with
  | ⟨seen, .next state⟩ => ⟨seen ++ (next state).occurrences, (next state).step⟩
  | ⟨seen, .ended state⟩ => ⟨seen, .ended state⟩
  | ⟨seen, .failed error state⟩ => ⟨seen, .failed error state⟩

/-- A behaviour goes on with one of those that follow from its state, if it goes on. -/
def Leads (first : Behaviour ρ) (next : State ρ → Behaviour ρ → Prop) (whole : Behaviour ρ) : Prop :=
  match first with
  | ⟨seen, .next state⟩ => ∃ second, next state second ∧ whole = ⟨seen ++ second.occurrences, second.step⟩
  | ⟨seen, .ended state⟩ => whole = ⟨seen, .ended state⟩
  | ⟨seen, .failed error state⟩ => whole = ⟨seen, .failed error state⟩

@[simp]
theorem stay_bind (state : State ρ) (next : State ρ → Behaviour ρ) : (stay state).bind next = next state := by
  simp [stay, bind]

@[simp]
theorem bind_stay (first : Behaviour ρ) : first.bind stay = first := by
  obtain ⟨seen, step⟩ := first
  cases step <;> simp [bind, stay]

theorem bind_assoc (first : Behaviour ρ) (second third : State ρ → Behaviour ρ) :
    (first.bind second).bind third = first.bind fun state => (second state).bind third := by
  obtain ⟨seen, step⟩ := first
  cases step with
  | next state =>
    cases found : second state with
    | mk more step => cases step <;> simp [bind, found]
  | ended state => rfl
  | failed error state => rfl

@[simp]
theorem stay_leads (state : State ρ) (next : State ρ → Behaviour ρ → Prop) (whole : Behaviour ρ) :
    (stay state).Leads next whole ↔ next state whole := by
  simp [stay, Leads]

/-- A behaviour that nothing follows leads to itself alone. -/
theorem leads_stay_iff {first whole : Behaviour ρ} :
    first.Leads (fun state last => last = stay state) whole ↔ whole = first := by
  obtain ⟨seen, step⟩ := first
  cases step <;> simp [Leads, stay]

theorem bind_leads (first : Behaviour ρ) (second : State ρ → Behaviour ρ)
    (next : State ρ → Behaviour ρ → Prop) (whole : Behaviour ρ) :
    (first.bind second).Leads next whole ↔ first.Leads (fun state => (second state).Leads next) whole := by
  obtain ⟨seen, step⟩ := first
  cases step with
  | ended state => rfl
  | failed error state => rfl
  | next state =>
    simp only [bind, Leads]
    cases second state with
    | mk more step =>
      cases step with
      | ended last => simp
      | failed error last => simp
      | next last =>
        constructor
        · rintro ⟨third, found, rfl⟩
          exact ⟨_, ⟨third, found, rfl⟩, by simp⟩
        · rintro ⟨_, ⟨third, found, rfl⟩, rfl⟩
          exact ⟨third, found, by simp⟩

theorem Leads.imp {first whole : Behaviour ρ} {next other : State ρ → Behaviour ρ → Prop}
    (leads : first.Leads next whole) (weaker : ∀ state second, next state second → other state second) :
    first.Leads other whole := by
  obtain ⟨seen, step⟩ := first
  cases step with
  | next state =>
    obtain ⟨second, found, same⟩ := leads
    exact ⟨second, weaker state second found, same⟩
  | ended state => exact leads
  | failed error state => exact leads

theorem Leads.unique {first whole other : Behaviour ρ} {next : State ρ → Behaviour ρ → Prop}
    (leads : first.Leads next whole) (leadsOther : first.Leads next other)
    (unique : ∀ state second third, next state second → next state third → second = third) :
    whole = other := by
  obtain ⟨seen, step⟩ := first
  cases step with
  | next state =>
    obtain ⟨second, found, rfl⟩ := leads
    obtain ⟨third, foundOther, rfl⟩ := leadsOther
    rw [unique state second third found foundOther]
  | ended state => exact Eq.trans leads (Eq.symm leadsOther)
  | failed error state => exact Eq.trans leads (Eq.symm leadsOther)

end Behaviour

/-- How many extensions a stream holds. -/
def extensionCount (tokens : List Token) : Nat := tokens.countP (·.kind == .extension)

namespace Token

variable {ρ : Type} [Host ρ]

/-- What a token does, with so many extensions after it. -/
def act (meaning : Meaning ρ) (following : Nat) (token : Token) (state : State ρ) : Behaviour ρ where
  occurrences :=
    if token.kind = .extension then [⟨token.symbol?, following, state.tape, state.pointer⟩] else []
  step := token.perform meaning 0 state

/-- What tokens do one after the other, with so many extensions after them. -/
def actAll (meaning : Meaning ρ) (following : Nat) : List Token → State ρ → Behaviour ρ
  | [], state => .stay state
  | token :: tokens, state =>
    (token.act meaning (extensionCount tokens + following) state).bind (actAll meaning following tokens)

theorem actAll_append (meaning : Meaning ρ) (following : Nat) (tokens others : List Token) (state : State ρ) :
    actAll meaning following (tokens ++ others) state =
      (actAll meaning (extensionCount others + following) tokens state).bind
        (actAll meaning following others) := by
  induction tokens generalizing state with
  | nil => simp [actAll]
  | cons token tokens ih =>
    rw [List.cons_append, actAll, actAll, Behaviour.bind_assoc, extensionCount, List.countP_append, Nat.add_assoc]
    congr 1
    funext state
    exact ih state

end Token

/-- A loop told by what its body does. It is left when its cell is not set, and with the program. -/
inductive Loop {ρ : Type} (body : State ρ → Behaviour ρ → Prop) : State ρ → Behaviour ρ → Prop where
  | skip {state : State ρ} (unset : state.isSet = false) : Loop body state (.stay state)
  | again {state next : State ρ} {seen : List Occurrence} {last : Behaviour ρ} (set : state.isSet = true)
      (first : body state ⟨seen, .next next⟩) (rest : Loop body next last) :
      Loop body state ⟨seen ++ last.occurrences, last.step⟩
  | ended {state last : State ρ} {seen : List Occurrence} (set : state.isSet = true)
      (first : body state ⟨seen, .ended last⟩) : Loop body state ⟨seen, .ended last⟩
  | failed {state last : State ρ} {seen : List Occurrence} {error : Error} (set : state.isSet = true)
      (first : body state ⟨seen, .failed error last⟩) : Loop body state ⟨seen, .failed error last⟩

namespace Loop

variable {ρ : Type} {body other : State ρ → Behaviour ρ → Prop}

theorem imp (runs : Loop body state whole) (weaker : ∀ state last, body state last → other state last) :
    Loop other state whole := by
  induction runs with
  | skip unset => exact .skip unset
  | again set first _ ih => exact .again set (weaker _ _ first) ih
  | ended set first => exact .ended set (weaker _ _ first)
  | failed set first => exact .failed set (weaker _ _ first)

theorem unique (runs : Loop body state whole) (runsOther : Loop body state last)
    (unique : ∀ state first second, body state first → body state second → first = second) :
    whole = last := by
  induction runs generalizing last with
  | skip unset =>
    cases runsOther with
    | skip => rfl
    | again set | ended set | failed set => rw [set] at unset; cases unset
  | again set first _ ih =>
    cases runsOther with
    | skip unset => rw [set] at unset; cases unset
    | again _ firstOther rest =>
      cases unique _ _ _ first firstOther
      rw [ih rest]
    | ended _ firstOther => cases unique _ _ _ first firstOther
    | failed _ firstOther => cases unique _ _ _ first firstOther
  | ended set first =>
    cases runsOther with
    | skip unset => rw [set] at unset; cases unset
    | again _ firstOther | ended _ firstOther | failed _ firstOther =>
      cases unique _ _ _ first firstOther
      try rfl
  | failed set first =>
    cases runsOther with
    | skip unset => rw [set] at unset; cases unset
    | again _ firstOther | ended _ firstOther | failed _ firstOther =>
      cases unique _ _ _ first firstOther
      try rfl

end Loop

namespace Code

variable {ρ : Type} [Host ρ] {guard : Code → State ρ → Prop} {meaning : Meaning ρ}

/-- A run of code with so many extensions after it, from a state. Where a loop starts, the guard holds
of its body and the state; tests of the loop after an iteration are no starts. -/
def Runs (guard : Code → State ρ → Prop) (meaning : Meaning ρ) :
    Code → Nat → State ρ → Behaviour ρ → Prop
  | .halt, _, state, whole => whole = .stay state
  | .token head rest, following, state, whole =>
    (head.act meaning (rest.extensions + following) state).Leads (rest.Runs guard meaning following) whole
  | .loop body rest, following, state, whole =>
    guard body state ∧ ∃ first, Loop (body.Runs guard meaning (rest.extensions + following)) state first ∧
      first.Leads (rest.Runs guard meaning following) whole

/-- A guard that lets every loop start. -/
def Unguarded (_ : Code) (_ : State ρ) : Prop := True

theorem Runs.imp {other : Code → State ρ → Prop} (runs : Runs guard meaning code following state whole)
    (weaker : ∀ body state, guard body state → other body state) :
    Runs other meaning code following state whole := by
  induction code generalizing following state whole with
  | halt => exact runs
  | token head rest ih => exact Behaviour.Leads.imp runs fun _ _ => ih
  | loop body rest ihBody ih =>
    obtain ⟨allowed, first, loop, leads⟩ := runs
    exact ⟨weaker body state allowed, first, loop.imp fun _ _ => ihBody, leads.imp fun _ _ => ih⟩

theorem Runs.unique (runs : Runs guard meaning code following state whole)
    (runsOther : Runs guard meaning code following state other) : whole = other := by
  induction code generalizing following state whole other with
  | halt => exact Eq.trans runs (Eq.symm runsOther)
  | token head rest ih => exact Behaviour.Leads.unique runs runsOther fun _ _ _ => ih
  | loop body rest ihBody ih =>
    obtain ⟨_, first, loop, leads⟩ := runs
    obtain ⟨_, second, loopOther, leadsOther⟩ := runsOther
    cases loop.unique loopOther fun _ _ _ => ihBody
    exact leads.unique leadsOther fun _ _ _ => ih

theorem extensions_withTokens (tokens : List Token) (code : Code) :
    (withTokens tokens code).extensions = extensionCount tokens + code.extensions := by
  induction tokens with
  | nil => simp [withTokens, extensionCount]
  | cons token tokens ih =>
    rw [withTokens, extensionCount] at ih
    rw [withTokens, List.foldr_cons, extensions, ih, extensionCount, List.countP_cons]
    by_cases kind : token.kind = .extension
    · simp [kind]
      omega
    · simp [kind]

/-- Tokens act one after the other, and the code after them runs. -/
theorem runs_withTokens (tokens : List Token) (code : Code) (following : Nat) (state : State ρ)
    (whole : Behaviour ρ) :
    Runs guard meaning (withTokens tokens code) following state whole ↔
      (Token.actAll meaning (code.extensions + following) tokens state).Leads
        (Runs guard meaning code following) whole := by
  induction tokens generalizing state whole with
  | nil => simp [withTokens, Token.actAll]
  | cons token tokens ih =>
    have same : Runs guard meaning (withTokens tokens code) following = fun state =>
        (Token.actAll meaning (code.extensions + following) tokens state).Leads
          (Runs guard meaning code following) := by
      funext state whole
      exact propext (ih state whole)
    rw [Token.actAll, Behaviour.bind_leads, ← same, ← Nat.add_assoc, ← extensions_withTokens]
    rfl

end Code
end TapeScript
