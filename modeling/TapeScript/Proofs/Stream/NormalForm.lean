import Mathlib.Data.List.Chain
import Mathlib.Logic.Relation
import TapeScript.Proofs.Stream.Expansion

/-! The normal form of cancellation. Opposite neighbours may be deleted and inserted anywhere, in any
order; streams that come out of each other in this way have one normal form, and it is the one that is
computed. -/
namespace TapeScript.Cancellation

open RunLength (expand)

/-- Whatever can be counted counts once, and no two neighbours are opposites. -/
structure Normal (tokens : List Token) : Prop where
  once : ∀ token ∈ tokens, token.Once
  apart : tokens.IsChain fun token next => token.kind.inverse ≠ .ok next.kind

/-- Two neighbours that are opposites are deleted. -/
inductive Deletes : List Token → List Token → Prop where
  | pair (front back : List Token) {kind inverse : TokenKind} (opposite : kind.inverse = .ok inverse) :
      Deletes (front ++ .single kind :: .single inverse :: back) (front ++ back)

/-- Opposite neighbours are deleted and inserted, any number of times. -/
abbrev Convertible : List Token → List Token → Prop := Relation.EqvGen Deletes

variable {token : Token} {tokens others done : List Token} {kind inverse : TokenKind}

namespace Normal

theorem nil : Normal [] := ⟨by simp, .nil⟩

theorem cons (once : token.Once) (apart : ∀ next ∈ tokens.head?, token.kind.inverse ≠ .ok next.kind)
    (normal : Normal tokens) : Normal (token :: tokens) where
  once := List.forall_mem_cons.mpr ⟨once, normal.once⟩
  apart := List.isChain_cons.mpr ⟨apart, normal.apart⟩

theorem of_append (normal : Normal (others ++ tokens)) : Normal tokens where
  once token member := normal.once token (List.mem_append_right others member)
  apart := normal.apart.right_of_append

theorem tail (normal : Normal (token :: tokens)) : Normal tokens :=
  have whole : Normal ([token] ++ tokens) := normal
  whole.of_append

theorem head (normal : Normal (token :: tokens)) : ∀ next ∈ tokens.head?, token.kind.inverse ≠ .ok next.kind :=
  (List.isChain_cons.mp normal.apart).1

/-- To be opposites is mutual, so a normal stream is normal from its end as well. -/
theorem reverse (normal : Normal tokens) : Normal tokens.reverse where
  once token member := normal.once token (List.mem_reverse.mp member)
  apart := by
    rw [List.isChain_reverse]
    exact normal.apart.imp fun _ _ apart inverted => apart (TokenKind.inverse_symm inverted)

end Normal

theorem take_single (inverted : kind.inverse = .ok inverse) (done : List Token) :
    take done (.single kind) = push kind inverse done := by
  have inverted : (Token.single kind).kind.inverse = .ok inverse := inverted
  rw [take_inverted inverted]
  rfl

private theorem foldl_take_replicate (inverted : kind.inverse = .ok inverse) (count : Nat) (done : List Token) :
    (List.replicate count (.single kind)).foldl take done = Nat.repeat (push kind inverse) count done := by
  induction count with
  | zero => rfl
  | succ count ih =>
    rw [List.replicate_succ', List.foldl_append, ih]
    exact take_single inverted _

private theorem foldl_take_expand (tokens done : List Token) :
    (expand tokens).foldl take done = tokens.foldl take done := by
  induction tokens generalizing done with
  | nil => rfl
  | cons token tokens ih =>
    cases foldable : token.isFoldable with
    | false => rw [RunLength.expand_other foldable, List.foldl_cons, List.foldl_cons, ih]
    | true =>
      obtain ⟨inverse, inverted, _⟩ := foldable_inverse foldable
      rw [RunLength.expand_foldable foldable, List.foldl_append, foldl_take_replicate inverted, ih,
        List.foldl_cons, take_inverted inverted]

/-- Counts may be written out before cancellation. -/
theorem normalForm_expand (tokens : List Token) : normalForm (expand tokens) = normalForm tokens := by
  rw [normalForm, foldl_take_expand, normalForm]

private theorem push_normal (inverted : kind.inverse = .ok inverse) (normal : Normal done) :
    Normal (push kind inverse done) := by
  have once : (Token.single kind).Once := fun _ => rfl
  cases done with
  | nil => exact .cons once (by simp) .nil
  | cons last earlier =>
    rw [push]
    split
    · exact normal.tail
    · rename_i other
      refine .cons once ?_ normal
      intro next found same
      obtain rfl : last = next := by simpa using found
      exact other (Except.ok.inj (same.symm.trans inverted))

private theorem take_normal (normal : Normal done) (token : Token) : Normal (take done token) := by
  apply take_induction Normal normal
  · intro inverse done inverted normal
    exact push_normal inverted normal
  · intro opaque'
    have inert : token.isFoldable ≠ true := by simp [opaque']
    refine .cons (fun foldable => absurd foldable inert) ?_ normal
    intro next _ inverted
    exact inert (TokenKind.foldable_of_inverse inverted)

private theorem foldl_take_normal (normal : Normal done) (tokens : List Token) : Normal (tokens.foldl take done) := by
  induction tokens generalizing done with
  | nil => exact normal
  | cons token tokens ih => exact ih (take_normal normal token)

theorem normal_normalForm (tokens : List Token) : Normal (normalForm tokens) := (foldl_take_normal .nil tokens).reverse

private theorem take_of_normal (normal : Normal (token :: done)) : take done token = token :: done := by
  cases foldable : token.isFoldable with
  | false => exact take_other foldable done
  | true =>
    obtain ⟨inverse, inverted, _⟩ := foldable_inverse foldable
    have single := normal.once token (by simp) foldable
    rw [single, take_single inverted]
    cases done with
    | nil => rfl
    | cons last earlier =>
      have apart : last.kind ≠ inverse := by
        rintro rfl
        exact normal.head last rfl inverted
      rw [push, if_neg apart]

private theorem foldl_take_of_normal (normal : Normal (tokens.reverse ++ done)) :
    tokens.foldl take done = tokens.reverse ++ done := by
  induction tokens generalizing done with
  | nil => rfl
  | cons token tokens ih =>
    rw [List.reverse_cons, List.append_assoc, List.singleton_append] at normal ⊢
    rw [List.foldl_cons, take_of_normal normal.of_append]
    exact ih normal

theorem normalForm_of_normal (normal : Normal tokens) : normalForm tokens = tokens := by
  rw [normalForm, foldl_take_of_normal (by simpa using normal.reverse)]
  simp

namespace Convertible

private theorem within (front : List Token) (convertible : Convertible tokens others) (back : List Token) :
    Convertible (front ++ (tokens ++ back)) (front ++ (others ++ back)) := by
  induction convertible with
  | rel _ _ deletes =>
    obtain ⟨before, rest, opposite⟩ := deletes
    simpa using Relation.EqvGen.rel _ _ (Deletes.pair (front ++ before) (rest ++ back) opposite)
  | refl => exact .refl _
  | symm _ _ _ ih => exact .symm _ _ ih
  | trans _ _ _ _ _ ih ihAfter => exact .trans _ _ _ ih ihAfter

theorem append {more further : List Token} (first : Convertible tokens others) (second : Convertible more further) :
    Convertible (tokens ++ more) (others ++ further) := by
  have before := first.within [] more
  have behind := second.within others []
  rw [List.append_nil, List.append_nil] at behind
  exact .trans _ _ _ before behind

end Convertible

private theorem push_converts (inverted : kind.inverse = .ok inverse) (normal : Normal done) :
    Convertible (done.reverse ++ [.single kind]) (push kind inverse done).reverse := by
  cases done with
  | nil => exact .refl _
  | cons last earlier =>
    rw [push]
    split
    · rename_i same
      have back := TokenKind.inverse_symm inverted
      have single : last = .single inverse := by
        rw [← same] at back ⊢
        exact normal.once last (by simp) (TokenKind.foldable_of_inverse back)
      simpa [single] using Relation.EqvGen.rel _ _ (Deletes.pair earlier.reverse [] back)
    · simpa using Relation.EqvGen.refl (r := Deletes) _

private theorem foldl_take_converts (once : ∀ token ∈ tokens, token.Once) (normal : Normal done) :
    Convertible (done.reverse ++ tokens) (tokens.foldl take done).reverse := by
  induction tokens generalizing done with
  | nil => simpa using Relation.EqvGen.refl (r := Deletes) _
  | cons token tokens ih =>
    have first : Convertible (done.reverse ++ [token]) (take done token).reverse := by
      cases foldable : token.isFoldable with
      | false => simpa [take_other foldable] using Relation.EqvGen.refl (r := Deletes) _
      | true =>
        obtain ⟨inverse, inverted, _⟩ := foldable_inverse foldable
        rw [once token (by simp) foldable, take_single inverted]
        exact push_converts inverted normal
    have rest := ih (fun other member => once other (by simp [member])) (take_normal normal token)
    refine .trans _ _ _ ?_ rest
    simpa using first.append (.refl tokens)

/-- Deleting is enough to come from a stream with its counts written out to its normal form. -/
theorem convertible_normalForm (tokens : List Token) : Convertible (expand tokens) (normalForm tokens) := by
  rw [← normalForm_expand]
  exact foldl_take_converts (RunLength.once_expand tokens) .nil

/-- Two opposites in a row leave a normal stack as it was. -/
private theorem push_push (inverted : kind.inverse = .ok inverse) (normal : Normal done) :
    push inverse kind (push kind inverse done) = done := by
  have undone (earlier : List Token) : push inverse kind (.single kind :: earlier) = earlier := if_pos rfl
  cases done with
  | nil => exact undone []
  | cons last earlier =>
    rw [push]
    split
    · -- The first of the two cancels, and the second stands again where it stood.
      rename_i same
      have back := TokenKind.inverse_symm inverted
      rw [← same] at back ⊢
      have single := normal.once last (by simp) (TokenKind.foldable_of_inverse back)
      have again := take_of_normal normal
      rwa [single, take_single back, ← single] at again
    · exact undone _

private theorem normalForm_eq_of_deletes (deletes : Deletes tokens others) : normalForm tokens = normalForm others := by
  obtain ⟨front, back, opposite⟩ := deletes
  have normal := foldl_take_normal .nil front
  simp only [normalForm, List.foldl_append, List.foldl_cons, take_single opposite,
    take_single (TokenKind.inverse_symm opposite), push_push opposite normal]

theorem normalForm_eq_of_convertible (convertible : Convertible tokens others) :
    normalForm tokens = normalForm others := by
  induction convertible with
  | rel _ _ deletes => exact normalForm_eq_of_deletes deletes
  | refl => rfl
  | symm _ _ _ ih => exact ih.symm
  | trans _ _ _ _ _ ih ihAfter => exact ih.trans ihAfter

/-- Streams have the same normal form just if one comes out of the other by deleting and inserting. -/
theorem normalForm_eq_iff (tokens others : List Token) :
    normalForm tokens = normalForm others ↔ Convertible (expand tokens) (expand others) := by
  constructor
  · intro same
    refine .trans _ _ _ (convertible_normalForm tokens) ?_
    rw [same]
    exact .symm _ _ (convertible_normalForm others)
  · intro convertible
    have same := normalForm_eq_of_convertible convertible
    rwa [normalForm_expand, normalForm_expand] at same

/-- Cancellation makes of every stream its one normal form. Nothing in it cancels, and it is shared by the streams
that come out of each other, counts written out, by deleting and inserting opposite neighbours. -/
theorem normalForm_unique (tokens others : List Token) :
    Normal (normalForm tokens) ∧
      (normalForm tokens = normalForm others ↔ Convertible (expand tokens) (expand others)) ∧
      (∀ normal, Normal normal → Convertible (expand tokens) normal → normal = normalForm tokens) ∧
      normalForm (normalForm tokens) = normalForm tokens ∧
      normalForm (tokens ++ others) = normalForm (normalForm tokens ++ normalForm others) := by
  have fixed (tokens : List Token) : expand (normalForm tokens) = normalForm tokens :=
    RunLength.expand_of_once (normal_normalForm tokens).once
  refine ⟨normal_normalForm tokens, normalForm_eq_iff tokens others, ?_, ?_, ?_⟩
  · intro normal isNormal convertible
    have same := normalForm_eq_of_convertible convertible
    rw [normalForm_expand, normalForm_of_normal isNormal] at same
    exact same.symm
  · exact normalForm_of_normal (normal_normalForm tokens)
  · rw [normalForm_eq_iff, RunLength.expand_append, RunLength.expand_append, fixed, fixed]
    exact (convertible_normalForm tokens).append (convertible_normalForm others)

/-- Moves that meet after the changes between them are gone cancel as well. -/
theorem normalForm_unique_nested :
    Convertible (expand [.counted .right 3, .counted .dec 2, .counted .inc 2, .counted .left 3, .single .output])
        [.single .output] ∧
      [.single .output] =
        normalForm [.counted .right 3, .counted .dec 2, .counted .inc 2, .counted .left 3, .single .output] := by
  obtain ⟨_, sameForm, unique, _⟩ := normalForm_unique
    [.counted .right 3, .counted .dec 2, .counted .inc 2, .counted .left 3, .single .output] [.single .output]
  have normal : Normal [.single .output] := .cons (fun foldable => by cases foldable) (by simp) .nil
  have convertible := sameForm.mp rfl
  exact ⟨convertible, unique _ normal convertible⟩

end TapeScript.Cancellation
