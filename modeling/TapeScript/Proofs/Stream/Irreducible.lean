import TapeScript.Proofs.Stream.Exactness

/-! Loops that come back to their origin and have no reduced form. Such a loop does not end, unless its body
clears the origin and adds nothing to it after the last clear. -/
namespace TapeScript

/-- A loop whose body leads from every set state to another one does not end. -/
theorem Loop.endless {ρ : Type} {iterate : State ρ → State ρ} {state : State ρ} {whole : Behaviour ρ}
    (keeps : ∀ state, state.isSet = true → (iterate state).isSet = true) (set : state.isSet = true) :
    ¬Loop (fun state last => last = .stay (iterate state)) state whole := by
  intro loop
  induction loop with
  | skip unset => simp [set] at unset
  | again set first _ ih =>
    cases first
    exact ih (keeps _ set)
  | ended _ first | failed _ first => cases first

namespace Reduction

variable {body : List Token} {token : Token} {ρ : Type} {state : State ρ}

/-- What updates make of a number. -/
def afterUpdates (value : Int) : List Token → Int
  | [] => value
  | token :: updates => afterUpdates (if token.kind = .clear then 0 else value + token.cellChange) updates

/-- What the changes of the origin come to, after its last clear if there is one. -/
def settledChange (body : List Token) : Int := afterUpdates 0 (updatesAt 0 0 body)

theorem afterUpdates_of_clear {updates : List Token} (clears : updates.any (·.kind == .clear) = true)
    (value other : Int) : afterUpdates value updates = afterUpdates other updates := by
  induction updates generalizing value other with
  | nil => simp at clears
  | cons token updates ih =>
    rw [afterUpdates, afterUpdates]
    by_cases clear : token.kind = .clear
    · rw [if_pos clear, if_pos clear]
    · exact ih (by simpa [clear] using clears) _ _

theorem afterUpdates_of_free {updates : List Token} (free : updates.any (·.kind == .clear) = false) (value : Int) :
    afterUpdates value updates = value + totalChange updates := by
  induction updates generalizing value with
  | nil => exact (Int.add_zero value).symm
  | cons token updates ih =>
    obtain ⟨dirty, others⟩ : token.kind ≠ .clear ∧ updates.any (·.kind == .clear) = false := by simpa using free
    rw [afterUpdates, if_neg dirty, ih others, totalChange, Int.add_assoc]

theorem afterUpdates_append (value : Int) (updates others : List Token) :
    afterUpdates value (updates ++ others) = afterUpdates (afterUpdates value updates) others := by
  induction updates generalizing value with
  | nil => rfl
  | cons token updates ih => exact ih _

theorem updatesAt_cons (offset position : Int) (plain : token.isFoldable = true ∨ token.kind = .clear)
    (body : List Token) : updatesAt offset position (token :: body) =
      updatesAt offset position [token] ++ updatesAt offset (position + token.displacement) body := by
  cases moves : token.isMove with
  | true => simp [updatesAt, moves]
  | false =>
    have still : token.displacement = 0 := by
      rcases plain with foldable | clear
      · exact Token.displacement_of_addition (by simpa [Token.isFoldable, moves] using foldable)
      · simp [Token.displacement, clear]
    by_cases here : position = offset <;> simp [updatesAt, moves, still, here]

private theorem pointer_effect (state : State ρ) (token : Token) :
    (Token.effect state token).pointer = state.pointer + token.displacement := by
  by_cases clear : token.kind = .clear
  · simp [Token.effect_clear clear, State.put, Token.displacement, clear]
  · rw [Token.effect, if_neg clear]
    rfl

private theorem read?_effect {position place value : Int} (plain : token.isFoldable = true ∨ token.kind = .clear)
    (start : state.pointer = place + position) (here : state.tape.read? place = some (Int32.ofInt value)) :
    (Token.effect state token).tape.read? place =
      some (Int32.ofInt (afterUpdates value (updatesAt 0 position [token]))) := by
  have origin : place = state.pointer ↔ position = 0 := by omega
  cases moves : token.isMove with
  | true =>
    rw [Token.effect_move moves]
    simp only [updatesAt, moves, if_true]
    exact here
  | false =>
    by_cases clear : token.kind = .clear
    · rw [Token.effect_clear clear]
      by_cases there : position = 0 <;> simp [State.put, updatesAt, afterUpdates, origin, moves, clear, here, there]
    · have addition : token.isAddition = true := by simpa [Token.isFoldable, moves] using plain.resolve_right clear
      rw [Token.effect_addition addition]
      by_cases there : position = 0 <;>
        simp [State.add, updatesAt, afterUpdates, origin, moves, clear, here, there, Int32.ofInt_add]

theorem pointer_effects (state : State ρ) (body : List Token) :
    (body.foldl Token.effect state).pointer = state.pointer + drift body := by
  induction body generalizing state with
  | nil => exact (Int.add_zero _).symm
  | cons token body ih => rw [List.foldl_cons, ih, pointer_effect, drift, Int.add_assoc]

/-- The updates of a cell are what happens to it, from wherever the body is run. -/
theorem read?_effects {position place value : Int} (plain : isPlain body = true)
    (start : state.pointer = place + position) (here : state.tape.read? place = some (Int32.ofInt value)) :
    (body.foldl Token.effect state).tape.read? place =
      some (Int32.ofInt (afterUpdates value (updatesAt 0 position body))) := by
  induction body generalizing state position value with
  | nil => exact here
  | cons token body ih =>
    obtain ⟨first, others⟩ := isPlain_cons.mp plain
    have next : (Token.effect state token).pointer = place + (position + token.displacement) := by
      rw [pointer_effect, start, Int.add_assoc]
    rw [List.foldl_cons, ih others next (read?_effect first start here), updatesAt_cons 0 position first body,
      afterUpdates_append]

private theorem once_of_stuck {walk : Walk} (stuck : walk.step token = none) : walk.once = true := by
  unfold Walk.step at stuck
  grind

private theorem clears_of_along {walk : Walk} (plain : isPlain body = true) (along : walk.along body = none) :
    (walk.once || (updatesAt 0 walk.position body).any (·.kind == .clear)) = true := by
  induction body generalizing walk with
  | nil => cases along
  | cons token body ih =>
    obtain ⟨first, others⟩ := isPlain_cons.mp plain
    cases stepped : walk.step token with
    | none => simp [once_of_stuck stepped]
    | some next =>
      have rest : next.along body = none := by simpa [Walk.along, stepped] using along
      have clears := ih others rest
      have adds : walk.Adds [token] next := Walk.adds (isPlain_cons.mpr ⟨first, rfl⟩) (by simp [Walk.along, stepped])
      rw [adds.once, (Walk.steps first stepped).position] at clears
      rw [updatesAt_cons 0 walk.position first body, List.any_append, ← Bool.or_assoc]
      exact clears

private theorem touched_of_ends {walk : Walk} (plain : isPlain body = true) (along : Walk.along {} body = some walk) :
    walk.once = true ∨ walk.divisor ≠ 0 → walk.touched = true := by
  refine Walk.along_induction (motive := fun walk _ => walk.once = true ∨ walk.divisor ≠ 0 → walk.touched = true)
    plain along (by simp) fun walk next done token touched steps => ?_
  cases steps with
  | move | clear | settled | scaled => exact touched
  | clearOrigin | origin => exact fun _ => rfl

/-- A balanced body is left as it is only if it clears the origin, or never clears it and leaves it as it was. -/
theorem clears_or_keeps (plain : isPlain body = true) (balanced : drift body = 0)
    (kept : reduceBody body = .ok none) : clearsOrigin body = true ∨ originDrop body = 0 := by
  cases along : Walk.along {} body with
  | none => exact .inl ((Bool.false_or _).symm.trans (clears_of_along plain along))
  | some walk =>
    have adds := Walk.adds plain along
    cases once : walk.once with
    | true => exact .inl (by rw [← once, adds.once]; exact (Bool.false_or _).symm)
    | false =>
      refine .inr (Decidable.byContradiction fun drops => ?_)
      have divisor : walk.divisor ≠ 0 := by
        rw [adds.divisor]
        exact fun none => drops (by rw [originDrop]; simpa using none)
      have touched := touched_of_ends plain along (.inr divisor)
      -- The statements of such a walk take the place of the loop, unless one of them cannot be made.
      simp only [reduceBody, plain, balanced, along, touched, once] at kept
      cases made : statements false walk.divisor walk.changes.reverse <;>
        simp [divisor, made, bind, Except.bind] at kept

/-- An iteration of a loop without a reduced form keeps a set origin set, unless it clears it for good. -/
theorem isSet_iterate (plain : isPlain body = true) (balanced : drift body = 0) (kept : reduceBody body = .ok none)
    (set : state.isSet = true) : (body.foldl Token.effect state).isSet = false ↔
      clearsOrigin body = true ∧ (UInt32.size : Int) ∣ settledChange body := by
  have covers := Tape.covers_of_isSet set
  obtain ⟨origin, here⟩ := Option.isSome_iff_exists.mp ((Tape.read?_isSome _ _).mpr covers)
  have nonzero : origin ≠ 0 := by simpa [isSet_of_read? here] using set
  have pointer : (body.foldl Token.effect state).pointer = state.pointer := by
    rw [pointer_effects, balanced, Int.add_zero]
  rw [← Int32.ofInt_toInt origin] at here
  have cell := read?_effects plain (Int.add_zero _).symm here
  rw [← pointer] at cell
  rw [isSet_of_read? cell, bne_eq_false_iff_eq, Numeric.ofInt_eq_zero_iff]
  cases clears : clearsOrigin body with
  | true => rw [afterUpdates_of_clear clears _ 0, settledChange]; simp
  | false =>
    have level : originDrop body = 0 := (clears_or_keeps plain balanced kept).resolve_left (by simp [clears])
    have none : totalChange (updatesAt 0 0 body) = 0 := Int.neg_eq_zero.mp level
    rw [afterUpdates_of_free clears, none, Int.add_zero, ← Numeric.ofInt_eq_zero_iff, Int32.ofInt_toInt]
    simp [nonzero]

/-- A balanced loop without a reduced form, once entered, ends only after its first iteration, and only if its
body clears the origin and what it adds to it after the last clear comes to nothing. -/
theorem irreducible_ends_iff {body : List Token} (plain : isPlain body = true) (balanced : drift body = 0)
    (kept : reduceBody body = .ok none) {ρ : Type} [Host ρ] (meaning : Meaning ρ) {state : State ρ}
    (set : state.isSet = true) (outcome : Outcome ρ) :
    Token.Ends meaning (loopOf body) state outcome ↔
      clearsOrigin body = true ∧ (UInt32.size : Int) ∣ settledChange body ∧
        outcome = .ended (body.foldl Token.effect state) := by
  constructor
  · intro ends
    obtain ⟨whole, loop, rfl⟩ := (ends_loopOf plain).mp ends
    cases leaves : (body.foldl Token.effect state).isSet with
    | false =>
      obtain ⟨clears, settles⟩ := (isSet_iterate plain balanced kept set).mp leaves
      exact ⟨clears, settles, Token.Ends.unique ends ((ends_loopOf plain).mpr ⟨_, .again set rfl (.skip leaves), rfl⟩)⟩
    | true =>
      -- Whether the loop is left does not depend on the state.
      have keeps : ∀ other : State ρ, other.isSet = true → (body.foldl Token.effect other).isSet = true := by
        intro other setOther
        rw [← Bool.not_eq_false, isSet_iterate plain balanced kept setOther, ← isSet_iterate plain balanced kept set,
          leaves]
        simp
      exact absurd loop (Loop.endless keeps set)
  · rintro ⟨clears, settles, rfl⟩
    have leaves := (isSet_iterate plain balanced kept set).mpr ⟨clears, settles⟩
    exact (ends_loopOf plain).mpr ⟨_, .again set rfl (.skip leaves), rfl⟩

/-- Raising the origin between two clears of it ends the loop. Raising it after the only one does not. -/
theorem irreducible_ends_iff_clears :
    Token.Ends ⟨.halt, fun _ => .next⟩ (loopOf [.single .clear, .single .inc, .single .clear])
        ⟨⟨#[5]⟩, 0, [], Collector.ofLines []⟩ (.ended ⟨⟨#[0]⟩, 0, [], Collector.ofLines []⟩) ∧
      ¬∃ outcome, Token.Ends ⟨.halt, fun _ => .next⟩ (loopOf [.single .clear, .single .inc])
        ⟨⟨#[5]⟩, 0, [], Collector.ofLines []⟩ outcome := by
  constructor
  · exact (irreducible_ends_iff rfl rfl rfl ⟨.halt, fun _ => .next⟩ rfl _).mpr ⟨rfl, by decide, rfl⟩
  · rintro ⟨outcome, ends⟩
    obtain ⟨_, settles, _⟩ := (irreducible_ends_iff rfl rfl rfl ⟨.halt, fun _ => .next⟩ rfl outcome).mp ends
    exact absurd settles (by decide)

/-- It is not that every balanced loop without a reduced form, once entered, runs forever. -/
theorem not_irreducible_endless :
    ¬∀ (body : List Token) (state : State Collector), isPlain body = true → (∀ token ∈ body, 0 < token.amount) →
      drift body = 0 → (originDrop body).natAbs < UInt32.size → reduceBody body = .ok none →
      (∀ front, front <+: body → state.tape.Covers (state.pointer + drift front)) → state.isSet = true →
      ¬∃ outcome, Token.Ends ⟨.halt, fun _ => .next⟩ (loopOf body) state outcome := by
  intro endless
  have still : ∀ count, drift (List.take count [.single .clear, .single .inc, .single .clear]) = 0
    | 0 | 1 | 2 => rfl
    | count + 3 => congrArg drift (List.take_of_length_le (Nat.le_add_left 3 count))
  refine endless [.single .clear, .single .inc, .single .clear] ⟨⟨#[5]⟩, 0, [], Collector.ofLines []⟩ rfl (by decide)
    rfl (by decide) rfl (fun front within => ?_) rfl ⟨.ended ⟨⟨#[0]⟩, 0, [], Collector.ofLines []⟩, _, 10, rfl, rfl⟩
  rw [List.prefix_iff_eq_take.mp within, still]
  decide

end Reduction
end TapeScript
