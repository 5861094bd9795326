import TapeScript.Host.Collector
import TapeScript.Proofs.Execution
import TapeScript.Proofs.Stream.Cancellation
import TapeScript.Proofs.Stream.RunLength

/-! Expansion writes every count out. The stages that cancel, count and expand keep what every stream
does, from every state. -/
namespace TapeScript

namespace RunLength

variable {token : Token} {tokens others : List Token}

theorem expand_append (tokens others : List Token) : expand (tokens ++ others) = expand tokens ++ expand others :=
  List.flatMap_append

theorem expand_foldable (foldable : token.isFoldable = true) (tokens : List Token) :
    expand (token :: tokens) = List.replicate token.amount.toNat (.single token.kind) ++ expand tokens := by
  simp [expand, foldable]

theorem expand_other (opaque' : token.isFoldable = false) (tokens : List Token) :
    expand (token :: tokens) = token :: expand tokens := by
  simp [expand, opaque']

/-- Expansion makes single tokens of the kinds there are, and passes the others on. -/
theorem mem_expand (member : token ∈ expand tokens) :
    token ∈ tokens ∧ token.isFoldable = false ∨
      ∃ source ∈ tokens, source.isFoldable = true ∧ token = .single source.kind := by
  obtain ⟨source, present, made⟩ := List.mem_flatMap.mp member
  split at made
  · rename_i foldable
    exact .inr ⟨source, present, foldable, (List.mem_replicate.mp made).2⟩
  · rename_i opaque'
    obtain rfl := List.mem_singleton.mp made
    exact .inl ⟨present, by simpa using opaque'⟩

theorem once_expand (tokens : List Token) : ∀ token ∈ expand tokens, token.Once := by
  intro token member foldable
  rcases mem_expand member with ⟨_, opaque'⟩ | ⟨source, _, _, rfl⟩
  · rw [opaque'] at foldable
    cases foldable
  · rfl

/-- Where everything counts once there is nothing to write out. -/
theorem expand_of_once (once : ∀ token ∈ tokens, token.Once) : expand tokens = tokens := by
  induction tokens with
  | nil => rfl
  | cons token tokens ih =>
    have rest := ih fun other member => once other (by simp [member])
    cases foldable : token.isFoldable with
    | false => rw [expand_other foldable, rest]
    | true =>
      have single := once token (by simp) foldable
      have amount : token.amount = 1 := by rw [single]; rfl
      rw [expand_foldable foldable, rest, amount, ← single]
      rfl

theorem expand_alike (counted : ∀ token ∈ tokens, token.Counted) : Alike (expand tokens) tokens := by
  induction tokens with
  | nil => exact .refl []
  | cons token tokens ih =>
    have rest := ih fun other member => counted other (by simp [member])
    cases foldable : token.isFoldable with
    | false =>
      rw [expand_other foldable]
      exact rest.cons token
    | true =>
      rw [expand_foldable foldable]
      exact (Alike.expand foldable (counted token (by simp))).append rest

/-- Expansion works stretch by stretch. -/
theorem expand_stretchwise : Stretchwise Token.Counted expand where
  split front marker tokens _ _ isMarker := by
    rw [expand_append, expand_other (Token.not_foldable_of_marker isMarker)]
  flat tokens flat _ token member := by
    rcases mem_expand member with ⟨old, _⟩ | ⟨source, _, foldable, rfl⟩
    · exact flat token old
    · exact Token.not_marker_of_foldable foldable
  alike tokens _ counted := expand_alike counted

end RunLength

/-- What a stage makes of a stream stretch by stretch is nested and ends as the stream does. -/
theorem Stretchwise.preserves {stage : List Token → List Token} (stretchwise : Stretchwise Token.Counted stage)
    (nested : Nested tokens) (counted : ∀ token ∈ tokens, token.Counted) :
    Nested (stage tokens) ∧
      ∀ {ρ : Type} [Host ρ] (meaning : Meaning ρ) (state : State ρ) (outcome : Outcome ρ),
        Token.Ends meaning (stage tokens) state outcome ↔ Token.Ends meaning tokens state outcome := by
  obtain ⟨code, reads⟩ := nested.reads
  have countedPlain : ∀ token ∈ tokens, token.isMarker = false → token.Counted :=
    fun token member _ => counted token member
  have readsMade := stretchwise.reads reads countedPlain
  refine ⟨readsMade.nested, fun meaning state outcome => Token.ends_congr readsMade reads ?_⟩
  rw [stretchwise.runs code (reads.each_plain countedPlain)]
  rfl

/-- Cancelling, counting and expanding a stream whose loop markers nest gives one that does what the stream
does, whatever the extensions mean and whatever state it starts from: it ends from the same states, and in the
same ways. -/
theorem folding_preserves (nested : Nested tokens) (counted : ∀ token ∈ tokens, token.Counted) :
    ∀ stage ∈ [Cancellation.normalForm, RunLength.compress, RunLength.expand],
      Nested (stage tokens) ∧
        ∀ {ρ : Type} [Host ρ] (meaning : Meaning ρ) (state : State ρ) (outcome : Outcome ρ),
          Token.Ends meaning (stage tokens) state outcome ↔ Token.Ends meaning tokens state outcome := by
  intro stage member
  have stretchwise : Stretchwise Token.Counted stage := by
    simp only [List.mem_cons, List.not_mem_nil, or_false] at member
    rcases member with rfl | rfl | rfl
    · exact Cancellation.stretchwise
    · exact RunLength.stretchwise Token.Counted
    · exact RunLength.expand_stretchwise
  exact stretchwise.preserves nested counted

/-- A loop that passes the end of the tape in each iteration. All but one decrement of its body cancels. -/
theorem folding_preserves_excursion :
    Cancellation.normalForm [.single .loopOpen, .counted .dec 2, .single .right, .counted .inc 3, .counted .dec 3,
        .single .left, .single .inc, .single .loopClose] =
      [.single .loopOpen, .single .dec, .single .loopClose] ∧
      Token.Ends ⟨.halt, fun _ => .next⟩ [.single .loopOpen, .counted .dec 2, .single .right, .counted .inc 3,
        .counted .dec 3, .single .left, .single .inc, .single .loopClose]
        ⟨⟨#[2]⟩, 0, [], Collector.ofLines []⟩ (.ended ⟨⟨#[0]⟩, 0, [], Collector.ofLines []⟩) := by
  let tokens : List Token := [.single .loopOpen, .counted .dec 2, .single .right, .counted .inc 3, .counted .dec 3,
    .single .left, .single .inc, .single .loopClose]
  have inner : Reads [.counted .dec 2, .single .right, .counted .inc 3, .counted .dec 3, .single .left,
      .single .inc] _ :=
    .token rfl (.token rfl (.token rfl (.token rfl (.token rfl (.token rfl .halt)))))
  have reads : Reads tokens _ := .loop rfl inner rfl .halt
  have counted : ∀ token ∈ tokens, token.Counted := by
    simp [tokens, Token.Counted, Token.single, Token.counted]
  have folded : Cancellation.normalForm tokens = [.single .loopOpen, .single .dec, .single .loopClose] := rfl
  obtain ⟨_, same⟩ := folding_preserves reads.nested counted Cancellation.normalForm (by simp)
  rw [folded] at same
  exact ⟨folded, (same _ _ _).mp ⟨_, 20, rfl, rfl⟩⟩

end TapeScript
