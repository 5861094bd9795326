import TapeScript.Proofs.Source
import TapeScript.Proofs.Stream.ReducedLoop

/-! Idioms do what their loops do. The loops end: counting up or down comes by zero, and looking for a
cell that is not set finds one outside the tape at the latest. -/
namespace TapeScript

namespace Loop

variable {ρ : Type} {body : State ρ → Behaviour ρ → Prop} {state : State ρ}

private theorem put_add (state : State ρ) (delta value : Int32) :
    (state.add 0 delta).put 0 value = state.put 0 value := by
  simp [State.add, State.put, Tape.write_add]

/-- A cell that is so many steps from zero is counted to zero. -/
private theorem clears_from {delta origin : Int32} (acts : ∀ state, body state (.stay (state.add 0 delta)))
    (count : Nat) (here : state.tape.read? state.pointer = some origin)
    (reaches : origin + Int32.ofInt count * delta = 0) : Loop body state (.stay (state.put 0 0)) := by
  induction count generalizing state origin with
  | zero =>
    have unset : state.isSet = false := by
      have zero : origin = 0 := by simpa using reaches
      simp [Reduction.isSet_of_read? here, zero]
    rw [State.put_of_unset unset]
    exact .skip unset
  | succ count ih =>
    cases set : state.isSet with
    | false =>
      rw [State.put_of_unset set]
      exact .skip set
    | true =>
      have cell := (Rewrites.add 0 delta state).origin
      rw [here, Option.map_some, if_pos rfl] at cell
      have nearer : origin + delta + Int32.ofInt count * delta = 0 := by
        rw [Int.natCast_add, Int32.ofInt_add] at reaches
        have one : Int32.ofInt (1 : Nat) = 1 := rfl
        rw [one] at reaches
        grind
      have rest := ih cell nearer
      rw [put_add] at rest
      exact .again set (acts state) rest

/-- Counting by one in either direction ends with a zero. -/
theorem clears {delta : Int32} (unit : delta = 1 ∨ delta = -1)
    (acts : ∀ state, body state (.stay (state.add 0 delta))) (state : State ρ) :
    Loop body state (.stay (state.put 0 0)) := by
  cases here : state.tape.read? state.pointer with
  | none =>
    have unset : state.isSet = false := by simp [State.isSet, Tape.isSet, Tape.read, here]
    rw [State.put_of_unset unset]
    exact .skip unset
  | some origin =>
    apply clears_from acts (-origin * delta).toUInt32.toNat here
    rw [← Numeric.toInt32_eq, Int32.toInt32_toUInt32]
    rcases unit with rfl | rfl <;> grind

private theorem ahead (position step : Int) (k : Nat) :
    position + step + k * step = position + (k + 1 : Nat) * step := by
  rw [Int.natCast_add, Int.add_mul]
  omega

/-- The first cell that is not set, given one some way ahead. -/
private theorem first_unset {tape : Tape} {step : Int} (limit : Nat) {position : Int}
    (last : tape.isSet (position + limit * step) = false) :
    ∃ distance ≤ limit, (∀ k < distance, tape.isSet (position + k * step) = true) ∧
      tape.isSet (position + distance * step) = false := by
  induction limit generalizing position with
  | zero => exact ⟨0, Nat.le_refl _, fun k below => by omega, last⟩
  | succ limit ih =>
    cases here : tape.isSet position with
    | false => exact ⟨0, Nat.zero_le _, fun k below => by omega, by simpa using here⟩
    | true =>
      rw [← ahead] at last
      obtain ⟨distance, bound, path, unset⟩ := ih last
      refine ⟨distance + 1, Nat.succ_le_succ bound, fun k below => ?_, by rw [← ahead]; exact unset⟩
      cases k with
      | zero => simpa using here
      | succ k =>
        rw [← ahead]
        exact path k (by omega)

/-- Some cell along the way is not set, be it the first outside the tape. -/
private theorem exists_unset (tape : Tape) (position : Int) {step : Int} (unit : step = 1 ∨ step = -1) :
    ∃ distance ≤ tape.size, (∀ k < distance, tape.isSet (position + k * step) = true) ∧
      tape.isSet (position + distance * step) = false := by
  have outside {place : Int} (uncovered : ¬tape.Covers place) : tape.isSet place = false := by
    cases set : tape.isSet place with
    | false => rfl
    | true => exact absurd (Tape.covers_of_isSet set) uncovered
  by_cases covers : tape.Covers position
  · apply first_unset
    apply outside
    obtain ⟨first, last⟩ := covers
    rintro ⟨firstAhead, lastAhead⟩
    rcases unit with rfl | rfl <;> omega
  · exact ⟨0, Nat.zero_le _, fun k below => by omega, by simpa using outside covers⟩

private theorem moves {step : Int} (acts : ∀ state, body state (.stay (state.move step))) (distance : Nat)
    (path : ∀ k < distance, state.tape.isSet (state.pointer + k * step) = true)
    (last : state.tape.isSet (state.pointer + distance * step) = false) :
    Loop body state (.stay (state.move (distance * step))) := by
  induction distance generalizing state with
  | zero =>
    have unset : state.isSet = false := by simpa [State.isSet] using last
    simpa using Loop.skip unset
  | succ distance ih =>
    have set : state.isSet = true := by simpa [State.isSet] using path 0 (by omega)
    have rest := @ih (state.move step)
      (fun k below => by
        have next := path (k + 1) (by omega)
        rw [← ahead] at next
        exact next)
      (by
        rw [← ahead] at last
        exact last)
    have whole : (state.move step).move (distance * step) = state.move ((distance + 1 : Nat) * step) := by
      rw [State.move_move, Int.natCast_add, Int.add_mul, Int.add_comm]
      simp
    rw [whole] at rest
    exact .again set (acts state) rest

theorem seeksRight (acts : ∀ state, body state (.stay (state.move 1))) (state : State ρ) :
    Loop body state (.stay state.seekRight) := by
  obtain ⟨distance, enough, path, last⟩ := exists_unset state.tape state.pointer (.inl rfl)
  have target : state.seekRight = state.move (distance * 1) := by
    obtain ⟨tape, pointer, pending, host⟩ := state
    simp only [State.seekRight, State.move, Tape.seekRight, Tape.seek_stops path last enough]
  rw [target]
  exact moves acts distance path last

theorem seeksLeft (acts : ∀ state, body state (.stay (state.move (-1)))) (state : State ρ) :
    Loop body state (.stay state.seekLeft) := by
  obtain ⟨distance, enough, path, last⟩ := exists_unset state.tape state.pointer (.inr rfl)
  have target : state.seekLeft = state.move (distance * -1) := by
    obtain ⟨tape, pointer, pending, host⟩ := state
    simp only [State.seekLeft, State.move, Tape.seekLeft, Tape.seek_stops path last enough]
  rw [target]
  exact moves acts distance path last

end Loop

namespace Code

variable {ρ : Type} [Host ρ] {guard : Code → State ρ → Prop} {meaning : Meaning ρ}

/-- An idiom is a single token that is repeated. -/
private theorem idiom?_cases {body : Code} {kind : TokenKind} (idiom : body.idiom? = some kind) :
    ∃ head, body = .token head .halt ∧
      (head.kind = .inc ∧ kind = .clear ∨ head.kind = .dec ∧ kind = .clear ∨
        head.kind = .left ∧ kind = .scanLeft ∨ head.kind = .right ∧ kind = .scanRight) := by
  cases body with
  | halt | loop => cases idiom
  | token head rest =>
    cases rest with
    | token | loop => cases idiom
    | halt =>
      refine ⟨head, rfl, ?_⟩
      simp only [idiom?] at idiom
      split at idiom <;> cases idiom <;> simp [*]

/-- A loop that is an idiom leads where its token does, and nowhere else. -/
private theorem idiom_loop {body : Code} {kind : TokenKind} (idiom : body.idiom? = some kind)
    (singles : body.Each fun token => token.amount = 1) (following other : Nat) (state : State ρ)
    (whole : Behaviour ρ) :
    Loop (body.Runs guard meaning following) state whole ↔ whole = (Token.single kind).act meaning other state := by
  have unique (reaches : Loop (body.Runs guard meaning following) state ((Token.single kind).act meaning other state)) :
      Loop (body.Runs guard meaning following) state whole ↔
        whole = (Token.single kind).act meaning other state := by
    constructor
    · intro loop
      exact loop.unique reaches fun _ _ _ => Runs.unique
    · rintro rfl
      exact reaches
  apply unique
  obtain ⟨head, rfl, forms⟩ := idiom?_cases idiom
  have single : head.amount = 1 := singles.1
  have acts {next : State ρ → State ρ}
    (leads : ∀ following state, head.act meaning following state = .stay (next state))
      (state : State ρ) : (Code.token head .halt).Runs guard meaning following state (.stay (next state)) := by
    rw [Runs, leads, Behaviour.stay_leads]
    rfl
  have additions {delta : Int32} (addition : head.isAddition = true) (change : Int32.ofInt head.cellChange = delta)
      (unit : delta = 1 ∨ delta = -1) :
      Loop ((Code.token head .halt).Runs guard meaning following) state (.stay (state.put 0 0)) :=
    Loop.clears unit (acts fun following state => by rw [Token.act_addition addition, change]) state
  have clears : (Token.single .clear).act meaning other state = .stay (state.put 0 0) := rfl
  have seeksRight : (Token.single .scanRight).act meaning other state = .stay state.seekRight := rfl
  have seeksLeft : (Token.single .scanLeft).act meaning other state = .stay state.seekLeft := rfl
  rcases forms with ⟨same, rfl⟩ | ⟨same, rfl⟩ | ⟨same, rfl⟩ | ⟨same, rfl⟩
  · rw [clears]
    exact additions (by simp [Token.isAddition, same]) (by simp [Token.cellChange, same, single]) (.inl rfl)
  · rw [clears]
    exact additions (by simp [Token.isAddition, same]) (by simp [Token.cellChange, same, single]) (.inr rfl)
  · rw [seeksLeft]
    apply Loop.seeksLeft
    apply acts
    intro following state
    rw [Token.act_move (by simp [Token.isMove, same])]
    simp [Token.displacement, same, single]
  · rw [seeksRight]
    apply Loop.seeksRight
    apply acts
    intro following state
    rw [Token.act_move (by simp [Token.isMove, same])]
    simp [Token.displacement, same, single]

theorem extensions_idiomize (code : Code) : code.idiomize.extensions = code.extensions := by
  induction code with
  | halt => rfl
  | token head rest ih => simp only [idiomize, extensions, ih]
  | loop body rest ihBody ih =>
    rw [idiomize]
    cases idiom : body.idiom? with
    | none => simp only [extensions, ihBody, ih]
    | some kind =>
      have none : body.extensions = 0 ∧ kind ≠ .extension := by
        obtain ⟨head, rfl, ⟨same, rfl⟩ | ⟨same, rfl⟩ | ⟨same, rfl⟩ | ⟨same, rfl⟩⟩ := idiom?_cases idiom <;>
          simp [extensions, same]
      have plain : (Token.single kind).kind ≠ .extension := none.2
      simp only [extensions, if_neg plain, ih, none.1]

/-- With tokens for the idioms a program does the same; loops that are idioms are not started any more. -/
theorem runs_idiomize {code : Code} (singles : code.Each fun token => token.amount = 1) {following : Nat}
    {state : State ρ} {whole : Behaviour ρ} :
    code.idiomize.Runs guard meaning following state whole ↔
      code.Runs (fun body state => body.idiom? = none → guard body.idiomize state) meaning following state whole := by
  induction code generalizing following state whole with
  | halt => rfl
  | token head rest ih =>
    have same : rest.idiomize.Runs guard meaning following =
        rest.Runs (fun body state => body.idiom? = none → guard body.idiomize state) meaning following := by
      funext state whole
      exact propext (ih singles.2)
    simp only [idiomize, Runs, extensions_idiomize, same]
  | loop body rest ihBody ih =>
    have sameBody (following : Nat) : body.idiomize.Runs guard meaning following =
        body.Runs (fun body state => body.idiom? = none → guard body.idiomize state) meaning following := by
      funext state whole
      exact propext (ihBody singles.1)
    have sameRest : rest.idiomize.Runs guard meaning following =
        rest.Runs (fun body state => body.idiom? = none → guard body.idiomize state) meaning following := by
      funext state whole
      exact propext (ih singles.2)
    rw [idiomize]
    cases idiom : body.idiom? with
    | none => simp only [Runs, extensions_idiomize, sameBody, sameRest, idiom, forall_const]
    | some kind =>
      simp only [Runs, extensions_idiomize, sameRest, idiom, reduceCtorEq, false_imp_iff, true_and]
      constructor
      · intro leads
        exact ⟨_, (idiom_loop idiom singles.1 _ _ state _).mpr rfl, leads⟩
      · rintro ⟨first, loop, leads⟩
        rw [(idiom_loop idiom singles.1 _ (rest.extensions + following) state first).mp loop] at leads
        exact leads

/-- A program starts on a cell that is not set, so it passes the loops it begins with. -/
theorem Runs.skipLoops {code : Code} {following : Nat} {state : State ρ} {whole : Behaviour ρ}
    (runs : code.Runs guard meaning following state whole) (unset : state.isSet = false) :
    code.skipLoops.Runs guard meaning following state whole := by
  induction code with
  | halt | token => exact runs
  | loop body rest _ ih =>
    obtain ⟨_, first, loop, leads⟩ := runs
    cases loop with
    | skip =>
      rw [Behaviour.stay_leads] at leads
      exact ih leads
    | again set | ended set | failed set =>
      rw [set] at unset
      cases unset

theorem Runs.withLoops {code : Code} {following : Nat} {state : State ρ} {whole : Behaviour ρ}
    (runs : code.skipLoops.Runs Unguarded meaning following state whole) (unset : state.isSet = false) :
    code.Runs Unguarded meaning following state whole := by
  induction code with
  | halt | token => exact runs
  | loop body rest _ ih => exact ⟨trivial, .stay state, .skip unset, (Behaviour.stay_leads ..).mpr (ih runs)⟩

end Code

/-- The first cell of a program is not set. -/
theorem State.start_unset {ρ : Type} (literal? : Option Literal) (host : ρ) :
    (State.start literal? host).isSet = false := by
  simp [State.isSet, State.start, Tape.isSet, Tape.read_blank]

end TapeScript
