import TapeScript.Proofs.Stream.Reduction

/-! The stack of open loops on any stream at all. It holds the loops that are open, so a stream that is taken in
with none left on it has nested markers, and no other error occurs than that of a stream without them. -/
namespace TapeScript.Reduction

variable {opener closer token : Token} {tokens others : List Token}

/-- A stream in which so many loops are open at the end. -/
def Waiting : Nat → List Token → Prop
  | 0, tokens => Nested tokens
  | depth + 1, tokens => ∃ outer opener inner, tokens = outer ++ opener :: inner ∧ Waiting depth outer ∧
      opener.kind = .loopOpen ∧ Nested inner

namespace Waiting

variable {depth : Nat}

theorem append (waiting : Waiting depth tokens) (nested : Nested others) : Waiting depth (tokens ++ others) := by
  cases depth with
  | zero => exact Brackets.Balanced.append waiting nested
  | succ depth =>
    obtain ⟨outer, opener, inner, rfl, waiting, opening, inside⟩ := waiting
    exact ⟨outer, opener, inner ++ others, by simp, waiting, opening, inside.append nested⟩

theorem opens (waiting : Waiting depth tokens) (opening : opener.kind = .loopOpen) :
    Waiting (depth + 1) (tokens ++ [opener]) :=
  ⟨tokens, opener, [], rfl, waiting, opening, .nil⟩

theorem closes (waiting : Waiting (depth + 1) tokens) (closing : closer.kind = .loopClose) :
    Waiting depth (tokens ++ [closer]) := by
  obtain ⟨outer, opener, inner, rfl, waiting, opening, inside⟩ := waiting
  have loop : Nested (opener :: inner ++ [closer]) := .loop opening inside closing .nil
  simpa using waiting.append loop

end Waiting

/-- What holds while a stream is taken in: the loops on the stack are those that are open, and what is held of the
stream has positive counts. -/
structure Progress.Tracks (progress : Progress) (taken : List Token) : Prop where
  waiting : Waiting progress.frames.length taken
  done : ∀ token ∈ progress.done, token.Counted
  frames : ∀ frame ∈ progress.frames, ∀ token ∈ frame.marker :: frame.before, token.Counted

namespace Progress.Tracks

variable {progress : Progress} {taken : List Token}

theorem opens (tracks : progress.Tracks taken) (counted : opener.Counted) (opening : opener.kind = .loopOpen) :
    (progress.openLoop opener).Tracks (taken ++ [opener]) := by
  obtain ⟨waiting, done, frames⟩ := tracks
  rw [openLoop_eq]
  have framesAround : ∀ frame ∈ surround progress.frames, ∀ token ∈ frame.marker :: frame.before, token.Counted := by
    cases held : progress.frames with
    | nil => simp [surround]
    | cons frame rest =>
      rw [held] at frames
      obtain ⟨first, others⟩ := List.forall_mem_cons.mp frames
      exact List.forall_mem_cons.mpr ⟨first, others⟩
  have length : (surround progress.frames).length = progress.frames.length := by cases progress.frames <;> rfl
  have opened : Waiting ((surround progress.frames).length + 1) (taken ++ [opener]) := by
    rw [length]
    exact waiting.opens opening
  have before : ∀ token ∈ opener :: progress.done, token.Counted := List.forall_mem_cons.mpr ⟨counted, done⟩
  exact ⟨opened, by simp, List.forall_mem_cons.mpr ⟨before, framesAround⟩⟩

theorem closes (tracks : progress.Tracks taken) (counted : closer.Counted) (closing : closer.kind = .loopClose) :
    progress.closeLoop closer = .error .unbalancedLoop ∨
      ∃ next, progress.closeLoop closer = .ok next ∧ next.Tracks (taken ++ [closer]) := by
  obtain ⟨held, stack, reduced, kept⟩ := progress
  obtain ⟨waiting, done, frames⟩ := tracks
  cases stack with
  | nil => exact .inl rfl
  | cons frame stack =>
    have closed := waiting.closes closing
    obtain ⟨around, outer⟩ := List.forall_mem_cons.mp frames
    have attempt := reduceBody_eq fun token member => done token (List.mem_reverse.mp member)
    rcases closeLoop_cases frame stack held reduced kept closer with
      stays | ⟨short, made, shortens⟩ | ⟨error, failed, _⟩
    · have whole : ∀ token ∈ held ++ frame.marker :: frame.before, token.Counted :=
        List.forall_mem_append.mpr ⟨done, around⟩
      exact .inr ⟨_, stays, closed, List.forall_mem_cons.mpr ⟨counted, whole⟩, outer⟩
    · have kind := kind_of_reduceBody made
      have countedShort : short.Counted := by
        intro foldable
        rcases Token.kind_of_foldable foldable with other | other | other | other <;> simp [kind] at other
      have before := (List.forall_mem_cons.mp around).2
      exact .inr ⟨_, shortens, closed, List.forall_mem_cons.mpr ⟨countedShort, before⟩, outer⟩
    · rw [attempt] at failed
      cases failed

theorem take (tracks : progress.Tracks taken) (counted : token.Counted) :
    progress.take token = .error .unbalancedLoop ∨
      ∃ next, progress.take token = .ok next ∧ next.Tracks (taken ++ [token]) := by
  cases plain : token.isMarker with
  | false =>
    obtain ⟨waiting, done, frames⟩ := tracks
    have still : Waiting progress.frames.length (taken ++ [token]) := waiting.append (Nested.token plain .nil)
    exact .inr ⟨_, take_plain plain progress, still, List.forall_mem_cons.mpr ⟨counted, done⟩, frames⟩
  | true =>
    rcases Token.isMarker_iff.mp plain with opening | closing
    · exact .inr ⟨_, take_open opening progress, tracks.opens counted opening⟩
    · rw [take_close closing]
      exact tracks.closes counted closing

theorem foldlM_take (tracks : progress.Tracks taken) (counted : ∀ token ∈ tokens, token.Counted) :
    tokens.foldlM Progress.take progress = .error .unbalancedLoop ∨
      ∃ last, tokens.foldlM Progress.take progress = .ok last ∧ last.Tracks (taken ++ tokens) := by
  induction tokens generalizing progress taken with
  | nil => exact .inr ⟨progress, rfl, by simpa using tracks⟩
  | cons token tokens ih =>
    rw [List.foldlM_cons]
    rcases tracks.take (counted token (by simp)) with failed | ⟨next, takes, tracksNext⟩
    · exact .inl (by rw [failed]; rfl)
    · have rest := ih tracksNext fun other member => counted other (by simp [member])
      rw [List.append_assoc] at rest
      rw [takes]
      exact rest

end Progress.Tracks

/-- Whatever is not nested is refused. -/
theorem nested_or_refused (counted : ∀ token ∈ tokens, token.Counted) :
    Nested tokens ∨ reduceStream tokens = .error .unbalancedLoop := by
  have start : Progress.Tracks {} [] := ⟨.nil, by simp, by simp⟩
  rcases start.foldlM_take counted with failed | ⟨last, taken, tracks⟩
  · exact .inr (by rw [reduceStream, failed]; rfl)
  · cases open' : last.frames with
    | nil =>
      have waiting := tracks.waiting
      rw [open'] at waiting
      exact .inl waiting
    | cons frame frames => exact .inr (by simp [reduceStream, taken, open', Error.require, bind, Except.bind])

end TapeScript.Reduction
