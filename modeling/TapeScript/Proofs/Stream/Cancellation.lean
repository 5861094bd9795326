import TapeScript.Proofs.Stream.Update
import TapeScript.Stream.Cancellation

/-! Cancellation keeps what every stream does. The stream taken in so far holds single tokens only,
so an opposite neighbour undoes exactly one of them, also after what stood between them is gone. -/
namespace TapeScript

theorem TokenKind.inverse_symm {kind inverse : TokenKind} (inverted : kind.inverse = .ok inverse) :
    inverse.inverse = .ok kind := by
  cases kind <;> cases inverted <;> rfl

theorem TokenKind.foldable_of_inverse {kind inverse : TokenKind} (inverted : kind.inverse = .ok inverse) :
    (Token.single kind).isFoldable = true := by
  cases kind <;> cases inverted <;> rfl

namespace Cancellation

variable {token : Token} {tokens done : List Token} {kind inverse : TokenKind}

theorem foldable_inverse (foldable : token.isFoldable = true) :
    ∃ inverse, token.kind.inverse = .ok inverse ∧ inverse.inverse = .ok token.kind := by
  rcases Token.kind_of_foldable foldable with kind | kind | kind | kind <;> rw [kind] <;> exact ⟨_, rfl, rfl⟩

theorem take_inverted (inverted : token.kind.inverse = .ok inverse) (done : List Token) :
    take done token = Nat.repeat (push token.kind inverse) token.amount.toNat done := by
  have foldable : token.isFoldable = true := TokenKind.foldable_of_inverse inverted
  rw [take, if_pos foldable, inverted]

theorem take_other (opaque' : token.isFoldable = false) (done : List Token) : take done token = token :: done := by
  rw [take, if_neg (by simp [opaque'])]

/-- What each step keeps that a token is taken in by holds after it. -/
theorem take_induction (holds : List Token → Prop) (start : holds done)
    (pushes : ∀ inverse done, token.kind.inverse = .ok inverse → holds done → holds (push token.kind inverse done))
    (other : token.isFoldable = false → holds (token :: done)) : holds (take done token) := by
  cases foldable : token.isFoldable with
  | false =>
    rw [take_other foldable]
    exact other foldable
  | true =>
    obtain ⟨inverse, inverted, _⟩ := foldable_inverse foldable
    rw [take_inverted inverted]
    generalize token.amount.toNat = count
    induction count with
    | zero => exact start
    | succ count ih => exact pushes inverse _ inverted ih

theorem push_once (once : ∀ token ∈ done, token.Once) (kind inverse : TokenKind) :
    ∀ token ∈ push kind inverse done, token.Once := by
  have single : (Token.single kind).Once := fun _ => rfl
  cases done with
  | nil => exact List.forall_mem_singleton.mpr single
  | cons last earlier =>
    rw [push]
    split
    · exact (List.forall_mem_cons.mp once).2
    · exact List.forall_mem_cons.mpr ⟨single, once⟩

private theorem take_once (once : ∀ token ∈ done, token.Once) (token : Token) :
    ∀ other ∈ take done token, other.Once := by
  apply take_induction (fun made => ∀ token ∈ made, token.Once) once
  · intro inverse done _ once
    exact push_once once token.kind inverse
  · intro opaque'
    refine List.forall_mem_cons.mpr ⟨?_, once⟩
    intro foldable
    rw [opaque'] at foldable
    cases foldable

/-- A token and a single one of the opposite kind after it come to nothing. -/
private theorem opposites_cancel {last : Token} (inverted : kind.inverse = .ok last.kind) (once : last.Once) :
    Alike [last, .single kind] [] := by
  have foldableLast : last.isFoldable = true := TokenKind.foldable_of_inverse (TokenKind.inverse_symm inverted)
  rw [once foldableLast]
  generalize last.kind = opposite at inverted
  cases kind <;> cases inverted <;> exact .cancel rfl rfl (by decide) rfl rfl

private theorem push_alike (inverted : kind.inverse = .ok inverse) (once : ∀ token ∈ done, token.Once) :
    Alike (push kind inverse done).reverse (done.reverse ++ [.single kind]) := by
  cases done with
  | nil => exact .refl _
  | cons last earlier =>
    rw [push]
    split
    · rename_i same
      rw [← same] at inverted
      have undone := opposites_cancel inverted (once last (by simp))
      simpa using (undone.within earlier.reverse []).symm
    · simpa using Alike.refl _

private theorem pushes_alike (inverted : kind.inverse = .ok inverse) (count : Nat) (once : ∀ token ∈ done, token.Once) :
    Alike (Nat.repeat (push kind inverse) count done).reverse
      (done.reverse ++ List.replicate count (.single kind)) := by
  have onceAfter (count : Nat) : ∀ token ∈ Nat.repeat (push kind inverse) count done, token.Once := by
    induction count with
    | zero => exact once
    | succ count ih => exact push_once ih kind inverse
  induction count with
  | zero => simpa [Nat.repeat] using Alike.refl _
  | succ count ih =>
    have last := push_alike inverted (onceAfter count)
    rw [List.replicate_succ', ← List.append_assoc]
    exact last.trans (ih.append (.refl _))

private theorem take_alike (counted : token.Counted) (once : ∀ token ∈ done, token.Once) :
    Alike (take done token).reverse (done.reverse ++ [token]) := by
  cases foldable : token.isFoldable with
  | false =>
    rw [take_other foldable]
    simpa using Alike.refl _
  | true =>
    obtain ⟨inverse, inverted, _⟩ := foldable_inverse foldable
    have alike := pushes_alike inverted token.amount.toNat once
    rw [take_inverted inverted]
    exact alike.trans ((Alike.refl _).append (.expand foldable counted))

private theorem foldl_take_alike (counted : ∀ token ∈ tokens, token.Counted) (once : ∀ token ∈ done, token.Once) :
    Alike (tokens.foldl take done).reverse (done.reverse ++ tokens) := by
  induction tokens generalizing done with
  | nil => simpa using Alike.refl _
  | cons token tokens ih =>
    have alike := take_alike (counted token (by simp)) once
    have rest := ih (fun other member => counted other (by simp [member])) (take_once once token)
    refine rest.trans ?_
    simpa using alike.append (.refl tokens)

theorem normalForm_alike (counted : ∀ token ∈ tokens, token.Counted) : Alike (normalForm tokens) tokens :=
  foldl_take_alike counted (by simp)

private theorem weight_take (counted : token.Counted) (done : List Token) :
    Token.weight (take done token) ≤ Token.weight done + token.cellChange.natAbs := by
  have cons (token : Token) (tokens : List Token) :
      Token.weight (token :: tokens) = token.cellChange.natAbs + Token.weight tokens := rfl
  have once (kind inverse : TokenKind) (done : List Token) :
      Token.weight (push kind inverse done) ≤ Token.weight done + (Token.single kind).cellChange.natAbs := by
    cases done with
    | nil => simp [push, Token.weight]
    | cons last earlier =>
      rw [push]
      split <;> simp only [cons] <;> omega
  have often (kind inverse : TokenKind) (count : Nat) : Token.weight (Nat.repeat (push kind inverse) count done) ≤
      Token.weight done + count * (Token.single kind).cellChange.natAbs := by
    induction count with
    | zero => simp [Nat.repeat]
    | succ count ih =>
      have last := once kind inverse (Nat.repeat (push kind inverse) count done)
      rw [Nat.succ_mul]
      exact Nat.le_trans last (by omega)
  cases foldable : token.isFoldable with
  | true =>
    have positive := counted foldable
    have total : token.amount.toNat * (Token.single token.kind).cellChange.natAbs = token.cellChange.natAbs := by
      rcases Token.kind_of_foldable foldable with kind | kind | kind | kind <;>
        simp [Token.cellChange, Token.single, Token.counted, kind] <;> omega
    obtain ⟨inverse, inverted, _⟩ := foldable_inverse foldable
    rw [take_inverted inverted, ← total]
    exact often token.kind inverse _
  | false =>
    rw [take_other foldable, cons]
    exact Nat.le_of_eq (Nat.add_comm ..)

/-- What cancels is lost, and nothing gained. -/
theorem weight_normalForm (counted : ∀ token ∈ tokens, token.Counted) :
    Token.weight (normalForm tokens) ≤ Token.weight tokens := by
  have taken (tokens done : List Token) (counted : ∀ token ∈ tokens, token.Counted) :
      Token.weight (tokens.foldl take done) ≤ Token.weight done + Token.weight tokens := by
    induction tokens generalizing done with
    | nil => simp [Token.weight]
    | cons token tokens ih =>
      have first := weight_take (counted token (by simp)) done
      have others := ih (take done token) fun other member => counted other (by simp [member])
      simp only [Token.weight, List.foldl_cons] at first others ⊢
      omega
  have whole := taken tokens [] counted
  simpa [normalForm, Token.weight_reverse, Token.weight] using whole

private theorem push_before {kind inverse : TokenKind} {marker : Token} (other : marker.kind ≠ inverse)
    (done earlier : List Token) :
    push kind inverse (done ++ marker :: earlier) = push kind inverse done ++ marker :: earlier := by
  cases done with
  | nil => simp [push, other]
  | cons last done =>
    simp only [List.cons_append, push]
    split <;> simp

private theorem take_before {marker : Token} (isMarker : marker.isMarker = true) (token : Token)
    (done earlier : List Token) : take (done ++ marker :: earlier) token = take done token ++ marker :: earlier := by
  cases foldable : token.isFoldable with
  | false => rw [take_other foldable, take_other foldable, List.cons_append]
  | true =>
    obtain ⟨inverse, inverted, _⟩ := foldable_inverse foldable
    have other : marker.kind ≠ inverse := by
      intro same
      have foldableMarker : marker.isFoldable = true := by
        rw [← same] at inverted
        exact TokenKind.foldable_of_inverse (TokenKind.inverse_symm inverted)
      rw [Token.not_foldable_of_marker isMarker] at foldableMarker
      cases foldableMarker
    rw [take_inverted inverted, take_inverted inverted]
    generalize token.amount.toNat = count
    induction count with
    | zero => rfl
    | succ count ih => simp only [Nat.repeat] at ih ⊢; rw [ih, push_before other]

private theorem foldl_take_before {marker : Token} (isMarker : marker.isMarker = true)
    (tokens done earlier : List Token) :
    tokens.foldl take (done ++ marker :: earlier) = tokens.foldl take done ++ marker :: earlier := by
  induction tokens generalizing done with
  | nil => rfl
  | cons token tokens ih => rw [List.foldl_cons, take_before isMarker, ih, List.foldl_cons]

/-- Nothing cancels across a loop marker. -/
theorem normalForm_split {marker : Token} (isMarker : marker.isMarker = true) (front tokens : List Token) :
    normalForm (front ++ marker :: tokens) = normalForm front ++ marker :: normalForm tokens := by
  have behind := foldl_take_before isMarker tokens [] (front.foldl take [])
  simp only [List.nil_append] at behind
  simp [normalForm, List.foldl_append, take_other (Token.not_foldable_of_marker isMarker), behind]

private theorem mem_push (member : token ∈ push kind inverse done) : token ∈ done ∨ token = .single kind := by
  cases done with
  | nil => exact .inr (by simpa [push] using member)
  | cons last earlier =>
    rw [push] at member
    split at member
    · exact .inl (by simp [member])
    · exact (List.mem_cons.mp member).symm

private theorem mem_take {source : Token} (member : token ∈ take done source) :
    token ∈ done ∨ token = source ∨ source.isFoldable = true ∧ token = .single source.kind := by
  revert member
  apply take_induction fun made => token ∈ made →
    token ∈ done ∨ token = source ∨ source.isFoldable = true ∧ token = .single source.kind
  · exact .inl
  · intro inverse made inverted ih member
    rcases mem_push member with old | new
    · exact ih old
    · exact .inr (.inr ⟨TokenKind.foldable_of_inverse inverted, new⟩)
  · intro _ member
    rcases List.mem_cons.mp member with new | old
    · exact .inr (.inl new)
    · exact .inl old

/-- Cancellation makes single tokens of the kinds there are, and passes the others on. -/
theorem mem_normalForm (member : token ∈ normalForm tokens) :
    token ∈ tokens ∨ ∃ source ∈ tokens, source.isFoldable = true ∧ token = .single source.kind := by
  have taken (tokens done : List Token) (member : token ∈ tokens.foldl take done) : token ∈ done ∨ token ∈ tokens ∨
      ∃ source ∈ tokens, source.isFoldable = true ∧ token = .single source.kind := by
    induction tokens generalizing done with
    | nil => exact .inl member
    | cons first tokens ih =>
      rcases ih _ member with here | later | ⟨source, present, found⟩
      · rcases mem_take here with old | new | ⟨foldable, new⟩
        · exact .inl old
        · exact .inr (.inl (by simp [new]))
        · exact .inr (.inr ⟨first, by simp, foldable, new⟩)
      · exact .inr (.inl (by simp [later]))
      · exact .inr (.inr ⟨source, by simp [present], found⟩)
  rcases taken tokens [] (by simpa [normalForm] using member) with none | found
  · simp at none
  · exact found

/-- Cancellation works stretch by stretch. -/
theorem stretchwise : Stretchwise Token.Counted normalForm where
  split front marker tokens _ _ isMarker := normalForm_split isMarker front tokens
  flat tokens flat _ token member := by
    rcases mem_normalForm member with old | ⟨source, _, foldable, rfl⟩
    · exact flat token old
    · exact Token.not_marker_of_foldable foldable
  alike tokens _ counted := normalForm_alike counted

end Cancellation
end TapeScript
