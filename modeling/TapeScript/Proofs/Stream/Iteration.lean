import TapeScript.Proofs.Stream.ReducedBody

/-! What an iteration does to a cell, read off the body without following it. A walk along the body comes
to the same. -/
namespace TapeScript.Reduction

/-- The changes and clears of the cell at an offset from the origin, in a body that starts at a position. -/
def updatesAt (offset : Int) : Int → List Token → List Token
  | _, [] => []
  | position, token :: body =>
    if token.isMove then updatesAt offset (position + token.displacement) body
    else if position = offset then token :: updatesAt offset position body
    else updatesAt offset position body

/-- What the changes of a cell come to. -/
def totalChange : List Token → Int
  | [] => 0
  | token :: tokens => token.cellChange + totalChange tokens

/-- How much the origin drops in one iteration. -/
def originDrop (body : List Token) : Int := -totalChange (updatesAt 0 0 body)

def clearsOrigin (body : List Token) : Bool := (updatesAt 0 0 body).any (·.kind == .clear)

/-- Whether the cell at an offset is changed, and not cleared before. -/
def addsTo (offset : Int) (body : List Token) : Bool := (updatesAt offset 0 body).head?.any Token.isAddition

section

variable {token : Token} {position offset : Int} {body : List Token}

private theorem updatesAt_move (move : token.isMove = true) :
    updatesAt offset position (token :: body) = updatesAt offset (position + token.displacement) body := by
  rw [updatesAt, if_pos move]

private theorem updatesAt_here (still : token.isMove = false) :
    updatesAt position position (token :: body) = token :: updatesAt position position body := by
  simp [updatesAt, still]

private theorem updatesAt_elsewhere (still : token.isMove = false) (apart : position ≠ offset) :
    updatesAt offset position (token :: body) = updatesAt offset position body := by
  simp [updatesAt, still, apart]

end

namespace Walk

/-- What following a body adds to what a walk knows. -/
structure Adds (walk : Walk) (body : List Token) (last : Walk) : Prop where
  divisor : last.divisor = walk.divisor - totalChange (updatesAt 0 walk.position body)
  once : last.once = (walk.once || (updatesAt 0 walk.position body).any (·.kind == .clear))
  scaled : ∀ offset ≠ 0, (∃ delta, .scaled offset delta ∈ last.changes) ↔
    (∃ delta, .scaled offset delta ∈ walk.changes) ∨
      offset ∉ walk.cleared ∧ (updatesAt offset walk.position body).head?.any Token.isAddition = true

private theorem Adds.step {walk next last : Walk} {token : Token} {body : List Token} (steps : walk.Steps token next)
    (adds : next.Adds body last) : walk.Adds (token :: body) last := by
  obtain ⟨divisor, once, scaled⟩ := adds
  have stillClear (clear : token.kind = .clear) : token.isMove = false := by simp [Token.isMove, clear]
  have stillAddition (addition : token.isAddition = true) : token.isMove = false ∧ (token.kind == .clear) = false := by
    rcases Token.kind_of_addition addition with kind | kind <;> simp [Token.isMove, kind]
  cases steps with
  | move move => constructor <;> simpa only [updatesAt_move move]
  | clearOrigin clear here =>
    have still := stillClear clear
    have none : token.cellChange = 0 := by simp [Token.cellChange, clear]
    constructor
    · simpa [here, updatesAt_here still, totalChange, none] using divisor
    · simpa [here, updatesAt_here still, clear] using once
    · intro offset elsewhere
      rw [updatesAt_elsewhere still (by omega)]
      exact scaled offset elsewhere
  | clear clear elsewhere =>
    have still := stillClear clear
    constructor
    · simpa only [updatesAt_elsewhere still elsewhere] using divisor
    · simpa only [updatesAt_elsewhere still elsewhere] using once
    · intro offset apart
      rw [scaled offset apart]
      by_cases here : walk.position = offset
      · subst here
        -- From here on the cell counts as cleared, and no change of it is scaled.
        have notAddition : token.isAddition = false := by simp [Token.isAddition, clear]
        simp [updatesAt_here still, notAddition]
      · simp [updatesAt_elsewhere still here, Ne.symm here]
  | origin addition here free =>
    obtain ⟨still, dirty⟩ := stillAddition addition
    constructor
    · rw [divisor, here, updatesAt_here still, totalChange]
      exact Int.sub_sub ..
    · simpa [here, updatesAt_here still, dirty] using once
    · intro offset elsewhere
      rw [updatesAt_elsewhere still (by omega)]
      exact scaled offset elsewhere
  | settled addition elsewhere before =>
    obtain ⟨still, _⟩ := stillAddition addition
    constructor
    · simpa only [updatesAt_elsewhere still elsewhere] using divisor
    · simpa only [updatesAt_elsewhere still elsewhere] using once
    · intro offset apart
      rw [scaled offset apart]
      by_cases here : walk.position = offset
      · subst here
        simp [before]
      · simp [updatesAt_elsewhere still here]
  | scaled addition elsewhere never =>
    obtain ⟨still, _⟩ := stillAddition addition
    constructor
    · simpa only [updatesAt_elsewhere still elsewhere] using divisor
    · simpa only [updatesAt_elsewhere still elsewhere] using once
    · intro offset apart
      rw [scaled offset apart]
      by_cases here : walk.position = offset
      · subst here
        simp [updatesAt_here still, addition, never]
      · simp [updatesAt_elsewhere still here, Ne.symm here]

theorem adds {body : List Token} {walk last : Walk} (plain : isPlain body = true)
    (along : walk.along body = some last) :
    walk.Adds body last := by
  induction body generalizing walk with
  | nil =>
    cases along
    constructor <;> simp [updatesAt, totalChange]
  | cons token body ih =>
    obtain ⟨first, others⟩ := isPlain_cons.mp plain
    obtain ⟨next, stepped, alongRest⟩ := Option.bind_eq_some_iff.mp along
    exact (ih others alongRest).step (steps first stepped)

end Walk

namespace Reducible

variable {walk : Walk} {body : List Token} (reducible : Reducible walk body)
include reducible

theorem divisor_eq : walk.divisor = originDrop body := by
  rw [(Walk.adds reducible.plain reducible.along).divisor, originDrop]
  exact Int.zero_sub _

theorem once_eq : walk.once = clearsOrigin body := by
  rw [(Walk.adds reducible.plain reducible.along).once, clearsOrigin]
  exact Bool.false_or _

theorem exists_scaled_iff {offset : Int} :
    (∃ delta, .scaled offset delta ∈ walk.changes) ↔ offset ≠ 0 ∧ addsTo offset body = true := by
  by_cases origin : offset = 0
  · subst origin
    have none (delta : Int) : .scaled 0 delta ∉ walk.changes := fun member =>
      reducible.describes.settled.elsewhere _ member rfl
    simp [none]
  · rw [(Walk.adds reducible.plain reducible.along).scaled offset origin, addsTo]
    simp [origin]

end Reducible
end TapeScript.Reduction
