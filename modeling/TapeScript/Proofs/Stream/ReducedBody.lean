import TapeScript.Proofs.Result
import TapeScript.Proofs.Stream.Walk

/-! The statements that take the place of a loop. They are made from a walk along its body, one for every
change, and whatever is reduced was made in this way. -/
namespace TapeScript.Reduction

/-- The statement of a change. -/
def Change.token (once : Bool) (divisor : Int) : Change → Token
  | .clear offset => .condClear offset
  | .settled offset delta => .condAdd offset delta
  | .scaled offset delta =>
    if once then .condAdd offset delta
    else { kind := .mulAdd, amount := delta, offset, divisor? := some divisor }

/-- The statements of a walk, the clearing of the origin last. -/
def Walk.body (walk : Walk) : List Token :=
  walk.changes.reverse.map (·.token walk.once walk.divisor) ++ [.clearAt 0]

private theorem statement_eq {change : Change} {once : Bool} {divisor : Int} (elsewhere : change.offset ≠ 0)
    (nonzero : change.delta ≠ 0) (divides : once = true ∨ divisor ≠ 0) :
    change.statement once divisor = .ok (change.token once divisor) := by
  cases change with
  | clear | settled => rfl
  | scaled offset delta =>
    cases once with
    | true => rfl
    | false =>
      have nonzero : delta ≠ 0 := nonzero
      have elsewhere : offset ≠ 0 := elsewhere
      have divisor : divisor ≠ 0 := divides.resolve_left (by simp)
      simp [Change.statement, Change.token, Token.mulAdd, Error.require, bind, Except.bind, *]

private theorem statements_eq (changes : List Change) {once : Bool} {divisor : Int}
    (elsewhere : ∀ change ∈ changes, change.offset ≠ 0) (nonzero : ∀ change ∈ changes, change.delta ≠ 0)
    (divides : once = true ∨ divisor ≠ 0) :
    statements once divisor changes = .ok (changes.map (·.token once divisor)) := by
  induction changes with
  | nil => rfl
  | cons change changes ih =>
    have first := statement_eq (elsewhere change (by simp)) (nonzero change (by simp)) divides
    have others := ih (fun other member => elsewhere other (by simp [member]))
      fun other member => nonzero other (by simp [member])
    simp only [statements, first, others, bind, Except.bind, List.map_cons]

private theorem statement_made {change : Change} {once : Bool} {divisor : Int} {token : Token}
    (made : change.statement once divisor = .ok token) : token = change.token once divisor := by
  cases change with
  | clear | settled => exact (Except.ok.inj made).symm
  | scaled offset delta =>
    cases once with
    | true => exact (Except.ok.inj made).symm
    | false =>
      have made : Token.mulAdd offset delta divisor = .ok token := made
      cases possible : offset != 0 && delta != 0 && divisor != 0 with
      | true =>
        simp only [Token.mulAdd, Error.require, possible, bind, Except.bind] at made
        exact (Except.ok.inj made).symm
      | false => simp [Token.mulAdd, Error.require, possible, bind, Except.bind] at made

private theorem statements_made {changes : List Change} {once : Bool} {divisor : Int} {tokens : List Token}
    (made : statements once divisor changes = .ok tokens) : tokens = changes.map (·.token once divisor) := by
  induction changes generalizing tokens with
  | nil => exact (Except.ok.inj made).symm
  | cons change changes ih =>
    obtain ⟨token, first, made⟩ := bind_ok_iff.mp made
    obtain ⟨rest, others, made⟩ := bind_ok_iff.mp made
    cases made
    rw [statement_made first, ih others, List.map_cons]

/-- What is known of a body that has a reduced form. -/
structure Reducible (walk : Walk) (body : List Token) : Prop where
  plain : isPlain body = true
  balanced : drift body = 0
  along : Walk.along {} body = some walk
  ends : walk.once = true ∨ walk.divisor ≠ 0

theorem Reducible.describes {walk : Walk} {body : List Token} (reducible : Reducible walk body) : walk.Describes body :=
  Walk.along_describes reducible.plain reducible.along

/-- A body that fits a walk is reduced if the statements of the walk can be made; any other is left as it is. -/
private theorem reduceBody_walk (body : List Token) :
    reduceBody body = .ok none ∨ ∃ walk : Walk, Reducible walk body ∧ reduceBody body = (do
      let changes ← statements walk.once walk.divisor walk.changes.reverse
      .ok (some (.reduced (changes ++ [.clearAt 0])))) := by
  unfold reduceBody
  split
  · rename_i fits
    obtain ⟨plain, balanced⟩ : isPlain body = true ∧ drift body = 0 := by simpa using fits
    split
    · exact .inl rfl
    · rename_i walk along
      split
      · rename_i touched
        have ends : walk.once = true ∨ walk.divisor ≠ 0 := by
          simp only [Bool.and_eq_true, Bool.or_eq_true, bne_iff_ne] at touched
          exact touched.2
        exact .inr ⟨walk, ⟨plain, balanced, along, ends⟩, rfl⟩
      · exact .inl rfl
  · exact .inl rfl

/-- A body is left as it is, or the statements of its walk take its place. -/
theorem reduceBody_cases {body : List Token} (counted : ∀ token ∈ body, token.Counted) :
    reduceBody body = .ok none ∨
      ∃ walk : Walk, Reducible walk body ∧ reduceBody body = .ok (some (.reduced walk.body)) := by
  rcases reduceBody_walk body with none | ⟨walk, fits, reduces⟩
  · exact .inl none
  · have changes := statements_eq walk.changes.reverse
      (fun change member => fits.describes.settled.elsewhere change (by simpa using member))
      (fun change member => fits.describes.changes counted change (by simpa using member)) fits.ends
    refine .inr ⟨walk, fits, ?_⟩
    simp only [reduces, changes, bind, Except.bind, Walk.body]

/-- Whatever its counts, a body that is reduced fits the walk whose statements take its place. -/
theorem reducible_of_reduceBody {body : List Token} {token : Token} (reduces : reduceBody body = .ok (some token)) :
    ∃ walk : Walk, Reducible walk body ∧ token = .reduced walk.body := by
  rcases reduceBody_walk body with none | ⟨walk, fits, made⟩
  · rw [none] at reduces
    cases reduces
  · refine ⟨walk, fits, ?_⟩
    rw [made] at reduces
    obtain ⟨tokens, changes, reduces⟩ := bind_ok_iff.mp reduces
    cases reduces
    rw [Walk.body, statements_made changes]

end TapeScript.Reduction
