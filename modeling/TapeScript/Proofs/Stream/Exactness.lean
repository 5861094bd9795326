import TapeScript.Host.Collector
import TapeScript.Proofs.Execution
import TapeScript.Proofs.Stream.Iteration
import TapeScript.Proofs.Stream.ReducedLoop

/-! What reduction promises of a single loop. It is exact wherever the origin is inside the tape. Outside, a
copy of the origin stores zero, though the loop would not be entered. -/
namespace TapeScript.Reduction

/-- The loop with a body. -/
def loopOf (body : List Token) : List Token := .single .loopOpen :: body ++ [.single .loopClose]

/-- Whether the reduced form of a body changes the cell at an offset by a copy of the origin. It does if the
number of iterations is the origin itself, up to its sign. -/
def copiesTo (offset : Int) (body : List Token) : Bool :=
  offset != 0 && addsTo offset body && !clearsOrigin body && (originDrop body == 1 || originDrop body == -1)

theorem Reducible.copies_eq {walk : Walk} {body : List Token} (reducible : Reducible walk body) (offset : Int) :
    walk.changes.any (·.copies walk.once walk.divisor offset) = copiesTo offset body := by
  have copies (change : Change) : change.copies walk.once walk.divisor offset = true ↔
      (∃ delta, change = .scaled offset delta) ∧ walk.once = false ∧ (walk.divisor = 1 ∨ walk.divisor = -1) := by
    cases change with
    | scaled place delta => simp [Change.copies, and_assoc, @eq_comm _ offset]
    | settled | clear => simp [Change.copies]
  have some_scaled : (∃ change ∈ walk.changes, ∃ delta, change = .scaled offset delta) ↔
      offset ≠ 0 ∧ addsTo offset body = true := by
    rw [← reducible.exists_scaled_iff]
    constructor
    · rintro ⟨_, member, delta, rfl⟩
      exact ⟨delta, member⟩
    · rintro ⟨delta, member⟩
      exact ⟨_, member, delta, rfl⟩
  apply Bool.eq_iff_iff.mpr
  simp only [List.any_eq_true, copies, ← and_assoc, exists_and_right, some_scaled]
  rw [reducible.once_eq, reducible.divisor_eq]
  simp [copiesTo, and_assoc]

variable {ρ : Type} [Host ρ] {meaning : Meaning ρ} {body : List Token} {token : Token} {state : State ρ}
  {outcome : Outcome ρ}

theorem ends_loopOf (plain : isPlain body = true) :
    Token.Ends meaning (loopOf body) state outcome ↔
      ∃ whole, Loop (fun state last => last = .stay (body.foldl Token.effect state)) state whole ∧
        whole.outcome = outcome := by
  have flat : ∀ token ∈ body, token.isMarker = false := by
    intro token member
    rcases kind_of_plain plain member with foldable | clear
    · exact Token.not_marker_of_foldable foldable
    · simp [Token.isMarker, clear]
  have reads : Reads (loopOf body) (.loop (Code.withTokens body .halt) .halt) :=
    .loop rfl (Reads.of_flat flat) rfl .halt
  have iteration : (Code.withTokens body .halt).Runs Code.Unguarded meaning 0 =
      fun state last => last = .stay (body.foldl Token.effect state) := by
    funext state last
    apply propext
    rw [Code.runs_withTokens, Token.actAll_plain plain, Behaviour.stay_leads, Code.Runs]
  have alone (whole : Behaviour ρ) : (Code.loop (Code.withTokens body .halt) .halt).Runs Code.Unguarded meaning 0
      state whole ↔ Loop (fun state last => last = .stay (body.foldl Token.effect state)) state whole := by
    rw [← iteration]
    constructor
    · rintro ⟨_, first, loop, leads⟩
      exact Behaviour.leads_stay_iff.mp leads ▸ loop
    · intro loop
      exact ⟨trivial, whole, loop, Behaviour.leads_stay_iff.mpr rfl⟩
  rw [Token.ends_iff reads]
  simp only [alone]

/-- Reduction is exact where the origin is inside the tape. The loop ends if it is not entered, if its body
clears the origin, or if the power of two in the drop of the origin divides the origin, and then its reduced
form ends in the same way. -/
theorem reduction_exact {body : List Token} {token : Token} (reduces : reduceBody body = .ok (some token))
    (bound : (originDrop body).natAbs < UInt32.size) {ρ : Type} [Host ρ] (meaning : Meaning ρ) {state : State ρ}
    (covers : state.tape.Covers state.pointer) :
    ((∃ outcome, Token.Ends meaning (loopOf body) state outcome) ↔
        state.tape.read state.pointer = 0 ∨ clearsOrigin body = true ∨
          ∃ shift, Numeric.LargestPower shift (originDrop body) ∧
            (Numeric.twoTo shift : Int) ∣ (state.tape.read state.pointer).toInt) ∧
      (originDrop body % 2 = 1 → ∃ outcome, Token.Ends meaning (loopOf body) state outcome) ∧
      ∀ outcome, Token.Ends meaning (loopOf body) state outcome →
        Token.Ends meaning [token] state outcome ∧
          ∃ last, outcome = .ended last ∧ last.pointer = state.pointer := by
  obtain ⟨walk, fits, rfl⟩ := reducible_of_reduceBody reduces
  rw [← fits.divisor_eq] at bound ⊢
  rw [← fits.once_eq]
  obtain ⟨origin, here⟩ := Option.isSome_iff_exists.mp ((Tape.read?_isSome _ _).mpr covers)
  have read : state.tape.read state.pointer = origin := by simp [Tape.read, here]
  have ends : (∃ outcome, Token.Ends meaning (loopOf body) state outcome) ↔ origin = 0 ∨ walk.once = true ∨
      ∃ shift, Numeric.LargestPower shift walk.divisor ∧ (Numeric.twoTo shift : Int) ∣ origin.toInt := by
    rw [← loop_ends_iff fits bound here fun _ _ => Iff.rfl]
    simp only [ends_loopOf fits.plain]
    constructor
    · rintro ⟨_, whole, loop, _⟩
      exact ⟨whole, loop⟩
    · rintro ⟨whole, loop⟩
      exact ⟨_, whole, loop, rfl⟩
  rw [read]
  refine ⟨ends, ?_, ?_⟩
  · intro isOdd
    have power : Numeric.LargestPower 0 walk.divisor := Numeric.largestPower_of_odd (Int.one_mul _).symm isOdd
    exact ends.mpr (.inr (.inr ⟨0, power, Int.one_dvd _⟩))
  · intro outcome run
    obtain ⟨whole, loop, rfl⟩ := (ends_loopOf fits.plain).mp run
    have same := reduced_acts fits meaning 0 bound covers (fun _ _ => id) loop
    obtain ⟨last, stays, pointer⟩ := loop_stays fits (fun _ _ => id) loop
    refine ⟨(Token.ends_single rfl).mpr (by rw [same]), last, ?_, pointer⟩
    rw [stays]
    rfl

/-- Taking pairs from six ends, and has a reduced form that ends alike. Taking pairs from seven does not end. -/
theorem reduction_exact_pairs :
    reduceBody [.counted .dec 2, .single .right, .counted .inc 3, .single .left] =
        .ok (some (.reduced [{ kind := .mulAdd, amount := 3, offset := 1, divisor? := some 2 }, .clearAt 0])) ∧
      Token.Ends ⟨.halt, fun _ => .next⟩
        [.reduced [{ kind := .mulAdd, amount := 3, offset := 1, divisor? := some 2 }, .clearAt 0]]
        ⟨⟨#[6, 1]⟩, 0, [], Collector.ofLines []⟩ (.ended ⟨⟨#[0, 10]⟩, 0, [], Collector.ofLines []⟩) ∧
      ¬∃ outcome, Token.Ends ⟨.halt, fun _ => .next⟩
        (loopOf [.counted .dec 2, .single .right, .counted .inc 3, .single .left])
        ⟨⟨#[7, 1]⟩, 0, [], Collector.ofLines []⟩ outcome := by
  let body : List Token := [.counted .dec 2, .single .right, .counted .inc 3, .single .left]
  have reduces : reduceBody body = .ok (some (.reduced
      [{ kind := .mulAdd, amount := 3, offset := 1, divisor? := some 2 }, .clearAt 0])) := rfl
  have bound : (originDrop body).natAbs < UInt32.size := by decide
  refine ⟨reduces, ?_, ?_⟩
  · have run : Token.Ends ⟨.halt, fun _ => .next⟩ (loopOf body) ⟨⟨#[6, 1]⟩, 0, [], Collector.ofLines []⟩
        (.ended ⟨⟨#[0, 10]⟩, 0, [], Collector.ofLines []⟩) := ⟨_, 20, rfl, rfl⟩
    exact ((reduction_exact reduces bound ⟨.halt, fun _ => .next⟩ (by decide)).2.2 _ run).1
  · intro ends
    have possible := (reduction_exact reduces bound ⟨.halt, fun _ => .next⟩ (by decide)).1.mp ends
    rcases possible with zero | clears | ⟨shift, power, divides⟩
    · exact absurd zero (by decide)
    · exact absurd clears (by decide)
    · have parts : originDrop body = Numeric.twoTo 1 * 1 := rfl
      obtain rfl := power.unique (Numeric.largestPower_of_odd parts rfl)
      exact absurd divides (by decide)

/-- Where the loop is not entered, its reduced form leaves every cell as it is, except that with the pointer
outside the tape it stores zero wherever it has a copy of the origin to make. -/
theorem reduction_unentered {body : List Token} {token : Token} (reduces : reduceBody body = .ok (some token))
    {ρ : Type} [Host ρ] (meaning : Meaning ρ) {state : State ρ} (unset : state.isSet = false) :
    Token.Ends meaning (loopOf body) state (.ended state) ∧
      ∃ after, Token.Ends meaning [token] state (.ended after) ∧
        (state.tape.Covers state.pointer → after = state) ∧
        Rewrites (fun offset value =>
          if ¬state.tape.Covers state.pointer ∧ copiesTo offset body = true then 0 else value) state after := by
  obtain ⟨walk, fits, rfl⟩ := reducible_of_reduceBody reduces
  obtain ⟨after, performed, rewrites⟩ := reduced_unentered fits.ends meaning unset
  simp only [fits.copies_eq] at rewrites
  refine ⟨(ends_loopOf fits.plain).mpr ⟨_, .skip unset, rfl⟩, after, ?_, ?_, rewrites⟩
  · have act : (Token.reduced walk.body).act meaning 0 state = ⟨[], .next after⟩ :=
      congrArg (Behaviour.mk []) performed
    exact (Token.ends_single rfl).mpr (by rw [act]; rfl)
  · intro covers
    exact rewrites.unique (.refl state) (by simp [covers])

/-- A copy from in front of the tape. -/
theorem reduction_unentered_copy : ∃ after,
    Token.Ends ⟨.halt, fun _ => .next⟩
      [.reduced [{ kind := .mulAdd, amount := 1, offset := 1, divisor? := some 1 }, .clearAt 0]]
      ⟨⟨#[5, 6]⟩, -1, [], Collector.ofLines []⟩ (.ended after) ∧
      after.tape.read? 0 = some 0 ∧ after.tape.read? 1 = some 6 := by
  have reduces : reduceBody [.single .dec, .single .right, .single .inc, .single .left] = .ok (some (.reduced
      [{ kind := .mulAdd, amount := 1, offset := 1, divisor? := some 1 }, .clearAt 0])) := rfl
  let front : State Collector := ⟨⟨#[5, 6]⟩, -1, [], Collector.ofLines []⟩
  have unset : front.isSet = false := rfl
  obtain ⟨_, after, ends, _, rewrites⟩ := reduction_unentered reduces ⟨.halt, fun _ => .next⟩ unset
  exact ⟨after, ends, rewrites.cells 1, rewrites.cells 2⟩

/-- It is not that a reduced form changes nothing where the loop is not entered. -/
theorem not_unentered_idle :
    ¬∀ (body : List Token) (token : Token) (state : State Collector), reduceBody body = .ok (some token) →
      state.isSet = false → Token.Ends ⟨.halt, fun _ => .next⟩ [token] state (.ended state) := by
  intro idle
  have ends := idle [.single .dec, .single .right, .single .inc, .single .left] _
    ⟨⟨#[5, 6]⟩, -1, [], Collector.ofLines []⟩ rfl rfl
  have copied : Token.Ends ⟨.halt, fun _ => .next⟩
      [.reduced [{ kind := .mulAdd, amount := 1, offset := 1, divisor? := some 1 }, .clearAt 0]]
      ⟨⟨#[5, 6]⟩, -1, [], Collector.ofLines []⟩ (.ended ⟨⟨#[0, 6]⟩, -1, [], Collector.ofLines []⟩) := ⟨_, 5, rfl, rfl⟩
  have same := Outcome.ended.inj (Token.Ends.unique ends copied)
  have cells := congrArg (fun state => state.tape.read? 0) same
  exact absurd cells (by decide)

end TapeScript.Reduction
