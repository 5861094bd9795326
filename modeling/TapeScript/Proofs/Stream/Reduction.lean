import TapeScript.Proofs.Stage
import TapeScript.Proofs.Stream.ReducedLoop

/-! Reduction on the tree, and that the stack of open loops does the same. -/
namespace TapeScript

/-- The reduced form of a loop, if it has one. -/
def Reduction.reduced? (body : List Token) : Option Token := (reduceBody body).toOption.join

namespace Code

/-- The reduced form of a loop with this body, if it has one. Loops around others have none. -/
def reducedLoop? (body : Code) : Option Token := body.tokens?.bind Reduction.reduced?

def reduce : Code → Code
  | .halt => .halt
  | .token head rest => .token head rest.reduce
  | .loop body rest =>
    match body.reducedLoop? with
    | some reduced => .token reduced rest.reduce
    | none => .loop body.reduce rest.reduce

end Code

namespace Reduction

/-- A reduced loop whose iteration count can be computed. -/
def Countable (token : Token) : Prop :=
  ∃ walk : Walk, (walk.once = true ∨ walk.divisor ≠ 0) ∧ walk.divisor.natAbs < UInt32.size ∧ token = .reduced walk.body

/-- A body with positive counts either has a reduced form or not; the attempt to find it does not fail. -/
theorem reduceBody_eq {body : List Token} (counted : ∀ token ∈ body, token.Counted) :
    reduceBody body = .ok (reduced? body) := by
  rcases reduceBody_cases counted with none | ⟨walk, _, some⟩
  · rw [reduced?, none]
    rfl
  · rw [reduced?, some]
    rfl

/-- A loop that is reduced has a body that fits a walk, which makes its reduced form. -/
theorem reducible {body : Code} {token : Token} (counted : body.Each Token.Counted)
    (found : body.reducedLoop? = some token) :
    ∃ tokens walk, body.tokens? = some tokens ∧ Reducible walk tokens ∧ token = .reduced walk.body := by
  obtain ⟨tokens, flat, reduced⟩ := Option.bind_eq_some_iff.mp found
  have reduces := reduceBody_eq (Code.each_of_tokens? flat counted)
  rw [reduced] at reduces
  obtain ⟨walk, fits, made⟩ := reducible_of_reduceBody reduces
  exact ⟨tokens, walk, flat, fits, made⟩

theorem each_reduce {code : Code} {holds : Token → Prop} (each : code.Each holds)
    (counted : code.Each Token.Counted) (light : code.weight < UInt32.size) :
    code.reduce.Each fun token => holds token ∨ Countable token := by
  induction code with
  | halt => trivial
  | token head rest ih =>
    rw [Code.weight] at light
    exact ⟨.inl each.1, ih each.2 counted.2 (by omega)⟩
  | loop body rest ihBody ih =>
    rw [Code.weight] at light
    have after := ih each.2 counted.2 (by omega)
    rw [Code.reduce]
    cases found : body.reducedLoop? with
    | none => exact ⟨ihBody each.1 counted.1 (by omega), after⟩
    | some token =>
      obtain ⟨tokens, walk, flat, fits, same⟩ := reducible counted.1 found
      rw [Code.weight_of_tokens? flat] at light
      have bound := fits.describes.divisor
      exact ⟨.inr ⟨walk, fits.ends, by omega, same⟩, after⟩

private theorem extensionCount_plain {tokens : List Token} (plain : isPlain tokens = true) :
    extensionCount tokens = 0 := by
  apply List.countP_eq_zero.mpr
  intro token member
  rcases kind_of_plain plain member with foldable | clear
  · simpa using Token.not_extension_of_foldable foldable
  · simp [clear]

theorem extensions_reduce {code : Code} (counted : code.Each Token.Counted) :
    code.reduce.extensions = code.extensions := by
  induction code with
  | halt => rfl
  | token head rest ih => rw [Code.reduce, Code.extensions, Code.extensions, ih counted.2]
  | loop body rest ihBody ih =>
    rw [Code.reduce, Code.extensions]
    cases found : body.reducedLoop? with
    | none => rw [Code.extensions, ihBody counted.1, ih counted.2]
    | some token =>
      obtain ⟨tokens, walk, flat, fits, rfl⟩ := reducible counted.1 found
      have none : body.extensions = 0 := by
        rw [Code.eq_withTokens flat, Code.extensions_withTokens, extensionCount_plain fits.plain]
        rfl
      have kind : (Token.reduced walk.body).kind ≠ .extension := by simp [Token.reduced]
      rw [Code.extensions, if_neg kind, ih counted.2, none]

variable {ρ : Type} [Host ρ] {meaning : Meaning ρ}

/-- The pointer is inside the tape where a loop starts that is reduced. -/
def Inside (body : Code) (state : State ρ) : Prop :=
  body.reducedLoop?.isSome = true → state.tape.Covers state.pointer

/-- What a program does, it does with its loops reduced. -/
theorem runs_reduce {code : Code} {following : Nat} {state : State ρ} {whole : Behaviour ρ}
    (counted : code.Each Token.Counted) (light : code.weight < UInt32.size)
    (runs : code.Runs Inside meaning following state whole) :
    code.reduce.Runs Code.Unguarded meaning following state whole := by
  induction code generalizing following state whole with
  | halt => exact runs
  | token head rest ih =>
    rw [Code.weight] at light
    simp only [Code.reduce, Code.Runs, extensions_reduce counted.2]
    exact Behaviour.Leads.imp runs fun _ _ => ih counted.2 (by omega)
  | loop body rest ihBody ih =>
    rw [Code.weight] at light
    obtain ⟨inside, first, loop, leads⟩ := runs
    have after := leads.imp fun _ _ => ih counted.2 (by omega)
    rw [Code.reduce]
    cases found : body.reducedLoop? with
    | none =>
      refine ⟨trivial, first, ?_, after⟩
      rw [extensions_reduce counted.2]
      exact loop.imp fun _ _ => ihBody counted.1 (by omega)
    | some token =>
      obtain ⟨tokens, walk, flat, fits, rfl⟩ := reducible counted.1 found
      rw [Code.weight_of_tokens? flat] at light
      have acts (state : State ρ) (last : Behaviour ρ)
          (run : body.Runs Inside meaning (rest.extensions + following) state last) :
          last = .stay (tokens.foldl Token.effect state) := by
        rw [Code.eq_withTokens flat, Code.runs_withTokens, Token.actAll_plain fits.plain, Behaviour.stay_leads] at run
        exact run
      have bound := fits.describes.divisor
      have same := reduced_acts fits meaning (rest.reduce.extensions + following) (by omega)
        (inside (by rw [found]; rfl)) acts loop
      rw [same] at after
      exact after

/-- The loop around is not an innermost one. -/
def surround : List Frame → List Frame
  | [] => []
  | frame :: frames => { frame with innermost := false } :: frames

private theorem surround_surround (frames : List Frame) : surround (surround frames) = surround frames := by
  cases frames <;> rfl

theorem openLoop_eq (progress : Progress) (marker : Token) :
    progress.openLoop marker =
      { progress with done := [], frames := ⟨marker, progress.done, true⟩ :: surround progress.frames } := by
  cases progress with
  | mk done frames reduced kept => cases frames <;> rfl

theorem take_plain {token : Token} (plain : token.isMarker = false) (progress : Progress) :
    progress.take token = .ok { progress with done := token :: progress.done } := by
  have plain := Token.not_isMarker_iff.mp plain
  unfold Progress.take
  split
  · exact absurd ‹_› plain.1
  · exact absurd ‹_› plain.2
  · rfl

theorem take_open {token : Token} (opening : token.kind = .loopOpen) (progress : Progress) :
    progress.take token = .ok (progress.openLoop token) := by
  simp [Progress.take, opening]

theorem take_close {token : Token} (closing : token.kind = .loopClose) (progress : Progress) :
    progress.take token = progress.closeLoop token := by
  simp [Progress.take, closing]

/-- The innermost open loop is closed: it stays, its reduced form takes its place, or the attempt to find one fails. -/
theorem closeLoop_cases (frame : Frame) (frames : List Frame) (done : List Token) (reduced kept : Nat)
    (closer : Token) :
    Progress.closeLoop { done, frames := frame :: frames, reduced, kept } closer =
        .ok { done := closer :: (done ++ frame.marker :: frame.before), frames, reduced, kept := kept + 1 } ∨
      (∃ token, reduceBody done.reverse = .ok (some token) ∧
        Progress.closeLoop { done, frames := frame :: frames, reduced, kept } closer =
          .ok { done := token :: frame.before, frames, reduced := reduced + 1, kept }) ∨
      ∃ error, reduceBody done.reverse = .error error ∧
        Progress.closeLoop { done, frames := frame :: frames, reduced, kept } closer = .error error := by
  cases innermost : frame.innermost with
  | false => exact .inl (by simp [Progress.closeLoop, innermost, bind, Except.bind])
  | true =>
    cases attempt : reduceBody done.reverse with
    | error error => exact .inr (.inr ⟨error, rfl, by simp [Progress.closeLoop, innermost, attempt, bind, Except.bind]⟩)
    | ok reduced? =>
      cases reduced? with
      | none => exact .inl (by simp [Progress.closeLoop, innermost, attempt, bind, Except.bind])
      | some token =>
        exact .inr (.inl ⟨token, rfl, by simp [Progress.closeLoop, innermost, attempt, bind, Except.bind]⟩)

/-- What a stream whose loop markers nest is made into, and how many loops are reduced and kept. A loop around
others is kept, whatever became of them. -/
inductive Reduces : List Token → List Token → Nat → Nat → Prop where
  | nil : Reduces [] [] 0 0
  | token {token : Token} {tokens made : List Token} {reduced kept : Nat} (plain : token.isMarker = false)
      (rest : Reduces tokens made reduced kept) : Reduces (token :: tokens) (token :: made) reduced kept
  | reduce {opener closer token : Token} {inner tokens made : List Token} {reduced kept : Nat}
      (opening : opener.kind = .loopOpen) (reduces : reduceBody inner = .ok (some token))
      (closing : closer.kind = .loopClose) (rest : Reduces tokens made reduced kept) :
      Reduces (opener :: (inner ++ closer :: tokens)) (token :: made) (reduced + 1) kept
  | keep {opener closer : Token} {inner tokens madeInner made : List Token} {reducedInner keptInner reduced kept : Nat}
      (opening : opener.kind = .loopOpen) (inside : Reduces inner madeInner reducedInner keptInner)
      (stays : loopCount inner = 0 → reduceBody inner = .ok none) (closing : closer.kind = .loopClose)
      (rest : Reduces tokens made reduced kept) :
      Reduces (opener :: (inner ++ closer :: tokens)) (opener :: (madeInner ++ closer :: made))
        (reducedInner + reduced) (keptInner + kept + 1)

variable {opener closer token : Token} {tokens inner made : List Token} {reduced kept : Nat}

theorem flat_of_reduceBody (reduces : reduceBody inner = .ok (some token)) :
    ∀ token ∈ inner, token.isMarker = false := by
  obtain ⟨_, fits, _⟩ := reducible_of_reduceBody reduces
  intro token member
  rcases kind_of_plain fits.plain member with foldable | clear
  · exact Token.not_marker_of_foldable foldable
  · simp [Token.isMarker, clear]

theorem kind_of_reduceBody (reduces : reduceBody inner = .ok (some token)) : token.kind = .reduced := by
  obtain ⟨_, _, rfl⟩ := reducible_of_reduceBody reduces
  rfl

theorem not_marker_of_reduceBody (reduces : reduceBody inner = .ok (some token)) : token.isMarker = false := by
  simp [Token.isMarker, kind_of_reduceBody reduces]

/-- A stream without loops stays as it is. -/
theorem Reduces.of_loopless (reduces : Reduces tokens made reduced kept) (loopless : loopCount tokens = 0) :
    made = tokens := by
  induction reduces with
  | nil => rfl
  | token plain _ ih => rw [ih (by rwa [loopCount_plain plain] at loopless)]
  | reduce opening _ closing => simp [loopCount_loop opening closing] at loopless
  | keep opening _ _ closing => simp [loopCount_loop opening closing] at loopless

private theorem foldlM_take_flat (flat : ∀ token ∈ tokens, token.isMarker = false) (progress : Progress) :
    tokens.foldlM Progress.take progress = .ok { progress with done := tokens.reverse ++ progress.done } := by
  induction tokens generalizing progress with
  | nil => rfl
  | cons token tokens ih =>
    rw [List.foldlM_cons, take_plain (flat token (by simp))]
    refine (ih (fun other member => flat other (by simp [member])) _).trans ?_
    simp

/-- A loop is taken in once its body is. -/
private theorem foldlM_take_loop (opening : opener.kind = .loopOpen) (closing : closer.kind = .loopClose)
    {progress middle : Progress} (inside : inner.foldlM Progress.take (progress.openLoop opener) = .ok middle)
    (tokens : List Token) :
    (opener :: (inner ++ closer :: tokens)).foldlM Progress.take progress =
      (do
        let closed ← middle.closeLoop closer
        tokens.foldlM Progress.take closed) := by
  rw [List.foldlM_cons, take_open opening]
  show List.foldlM Progress.take _ (inner ++ closer :: tokens) = _
  rw [List.foldlM_append, inside]
  show List.foldlM Progress.take middle (closer :: tokens) = _
  rw [List.foldlM_cons, take_close closing]

/-- What becomes of a loop without others in it depends on its body alone. -/
theorem foldlM_take_innermost (opening : opener.kind = .loopOpen) (flat : ∀ token ∈ inner, token.isMarker = false)
    (closing : closer.kind = .loopClose) (progress : Progress) (tokens : List Token) :
    (opener :: (inner ++ closer :: tokens)).foldlM Progress.take progress =
      (do
        let reduced? ← reduceBody inner
        tokens.foldlM Progress.take (match reduced? with
          | some token =>
            { done := token :: progress.done, frames := surround progress.frames
              reduced := progress.reduced + 1, kept := progress.kept }
          | none =>
            { done := closer :: (inner.reverse ++ opener :: progress.done), frames := surround progress.frames
              reduced := progress.reduced, kept := progress.kept + 1 })) := by
  rw [foldlM_take_loop opening closing (foldlM_take_flat flat _)]
  cases attempt : reduceBody inner with
  | error error => simp [openLoop_eq, Progress.closeLoop, attempt, bind, Except.bind]
  | ok reduced? => cases reduced? <;> simp [openLoop_eq, Progress.closeLoop, attempt, bind, Except.bind]

/-- The stack of open loops does what is described. The loops that are open are no innermost ones once another was
found. -/
private theorem Reduces.foldlM_take (reduces : Reduces tokens made reduced kept) (progress : Progress) :
    tokens.foldlM Progress.take progress = .ok {
      done := made.reverse ++ progress.done
      frames := if loopCount tokens = 0 then progress.frames else surround progress.frames
      reduced := progress.reduced + reduced
      kept := progress.kept + kept } := by
  induction reduces generalizing progress with
  | nil => rfl
  | token plain _ ih =>
    rw [List.foldlM_cons, take_plain plain]
    refine (ih _).trans ?_
    simp [loopCount_plain plain]
  | @reduce opener closer token inner tokens made reduced kept opening reduces closing _ ih =>
    rw [foldlM_take_innermost opening (flat_of_reduceBody reduces) closing, reduces]
    refine (ih _).trans ?_
    simp [loopCount_loop opening closing, surround_surround, Nat.add_assoc, Nat.add_comm 1]
  | @keep opener closer inner tokens madeInner made reducedInner keptInner reduced kept opening reduces stays
      closing _ ihInner ih =>
    have inside := ihInner (progress.openLoop opener)
    have closes : Progress.closeLoop {
          done := madeInner.reverse ++ []
          frames := ⟨opener, progress.done, loopCount inner = 0⟩ :: surround progress.frames
          reduced := progress.reduced + reducedInner
          kept := progress.kept + keptInner } closer =
        .ok { done := closer :: (madeInner.reverse ++ opener :: progress.done), frames := surround progress.frames
              reduced := progress.reduced + reducedInner, kept := progress.kept + keptInner + 1 } := by
      by_cases loopless : loopCount inner = 0
      · have same := reduces.of_loopless loopless
        simp [Progress.closeLoop, loopless, same, stays loopless, bind, Except.bind]
      · simp [Progress.closeLoop, loopless, bind, Except.bind]
    have middle : (if loopCount inner = 0 then (progress.openLoop opener).frames
        else surround (progress.openLoop opener).frames) =
          ⟨opener, progress.done, loopCount inner = 0⟩ :: surround progress.frames := by
      rw [openLoop_eq]
      split <;> simp [surround, *]
    rw [middle, openLoop_eq] at inside
    rw [foldlM_take_loop opening closing (by rw [openLoop_eq, inside]), closes]
    refine (ih _).trans ?_
    simp [loopCount_loop opening closing, surround_surround, Nat.add_assoc, Nat.add_comm 1]

theorem Reduces.reduceStream_eq (reduces : Reduces tokens made reduced kept) :
    reduceStream tokens = .ok { tokens := made, reduced, kept } := by
  have none : (if loopCount tokens = 0 then [] else surround []).isEmpty = true := by split <;> rfl
  simp [reduceStream, reduces.foldlM_take, none, bind, Except.bind, Error.require]

/-- A stream whose loop markers nest and whose counts are positive is made into something, which reads as the
reduced tree. -/
theorem exists_reduces {code : Code} (reads : Reads tokens code) (counted : ∀ token ∈ tokens, token.Counted) :
    ∃ made reduced kept, Reduces tokens made reduced kept ∧ Reads made code.reduce := by
  induction reads with
  | halt => exact ⟨[], 0, 0, .nil, .halt⟩
  | @token token tokens code plain _ ih =>
    obtain ⟨made, reduced, kept, reduces, reads⟩ := ih fun other member => counted other (by simp [member])
    exact ⟨token :: made, reduced, kept, .token plain reduces, .token plain reads⟩
  | @loop opener closer inner tokens body code opening inside closing _ ihInner ih =>
    have countedInner : ∀ token ∈ inner, token.Counted := fun token member => counted token (by simp [member])
    obtain ⟨madeInner, reducedInner, keptInner, reducesInner, readsInner⟩ := ihInner countedInner
    obtain ⟨made, reduced, kept, reduces, reads⟩ := ih fun token member => counted token (by simp [member])
    have attempt := reduceBody_eq countedInner
    rw [Code.reduce]
    cases found : body.reducedLoop? with
    | some token =>
      obtain ⟨found, flat, reduced⟩ := Option.bind_eq_some_iff.mp found
      obtain rfl := inside.tokens?_eq flat
      rw [reduced] at attempt
      have plain := not_marker_of_reduceBody attempt
      exact ⟨_, _, _, .reduce opening attempt closing reduces, .token plain reads⟩
    | none =>
      have stays (loopless : loopCount inner = 0) : reduceBody inner = .ok none := by
        rw [Code.reducedLoop?, inside.tokens?_of_loopless loopless, Option.bind_some] at found
        rw [attempt, found]
      exact ⟨_, _, _, .keep opening reducesInner stays closing reduces, .loop opening readsInner closing reads⟩

/-- The stream is read as the reduced tree. -/
theorem reduceStream_reads {tokens : List Token} {code : Code} (reads : Reads tokens code)
    (counted : ∀ token ∈ tokens, token.Counted) :
    ∃ result, reduceStream tokens = .ok result ∧ Reads result.tokens code.reduce := by
  obtain ⟨made, reduced, kept, reduces, readsMade⟩ := exists_reduces reads counted
  exact ⟨_, reduces.reduceStream_eq, readsMade⟩

end Reduction
end TapeScript
