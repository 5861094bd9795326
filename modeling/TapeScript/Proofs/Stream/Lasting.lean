import TapeScript.Proofs.Result
import TapeScript.Proofs.Stream.Cancellation
import TapeScript.Proofs.Stream.Coding
import TapeScript.Proofs.Stream.Fusion

/-! What the stages leave alone. Cancellation and run lengths deal with additions and moves only, fusion with
clears besides; all other tokens go through them as they are and in their order. The first two stages never
lengthen a stream. -/
namespace TapeScript

/-- Kinds of tokens that only reduction makes or takes away. -/
def TokenKind.lasts : TokenKind → Bool
  | .inc | .dec | .right | .left | .clear => false
  | .addAt | .clearAt | .addMove | .moveAdd | .moveClear => false
  | _ => true

variable {token : Token} {tokens coded done made : List Token} {kind inverse : TokenKind}

/-- The tokens of a stream that last. -/
def lasting (tokens : List Token) : List Token := tokens.filter (·.kind.lasts)

theorem lasting_append (tokens others : List Token) : lasting (tokens ++ others) = lasting tokens ++ lasting others :=
  List.filter_append _ _

theorem lasting_cons_of_not (brief : token.kind.lasts = false) (tokens : List Token) :
    lasting (token :: tokens) = lasting tokens := List.filter_cons_of_neg (by simp [brief])

theorem lasting_eq_nil (brief : ∀ token ∈ tokens, token.kind.lasts = false) : lasting tokens = [] :=
  List.filter_eq_nil_iff.mpr fun token member => by simp [brief token member]

theorem lasting_cons_congr (same : lasting made = lasting tokens) :
    lasting (token :: made) = lasting (token :: tokens) := by
  rw [lasting, lasting] at same ⊢
  rw [List.filter_cons, List.filter_cons, same]

/-- Tokens of a kind that lasts are as many where the same tokens last. -/
theorem countP_of_lasting (lasts : kind.lasts = true) (same : lasting made = lasting tokens) :
    made.countP (·.kind == kind) = tokens.countP (·.kind == kind) := by
  have counted (tokens : List Token) : (lasting tokens).countP (·.kind == kind) = tokens.countP (·.kind == kind) := by
    rw [lasting, List.countP_filter]
    refine List.countP_congr fun token _ => ?_
    constructor
    · intro both
      exact (Bool.and_eq_true _ _).mp both |>.1
    · intro found
      rw [found, Bool.true_and, beq_iff_eq.mp found, lasts]
  rw [← counted made, same, counted]

theorem not_lasts_of_foldable (foldable : token.isFoldable = true) : token.kind.lasts = false := by
  rcases Token.kind_of_foldable foldable with kind | kind | kind | kind <;> rw [kind] <;> rfl

theorem Fusion.Fused.not_lasts (fused : Fused token) : token.kind.lasts = false := by
  rcases fused with kind | kind | kind | kind | kind <;> rw [kind] <;> rfl

namespace Cancellation

theorem lasting_push (inverted : kind.inverse = .ok inverse) (done : List Token) :
    lasting (push kind inverse done) = lasting done := by
  have single : (Token.single kind).kind.lasts = false := not_lasts_of_foldable (TokenKind.foldable_of_inverse inverted)
  cases done with
  | nil => exact lasting_cons_of_not single []
  | cons last earlier =>
    rw [push]
    split
    · rename_i opposite
      have inverse := not_lasts_of_foldable (TokenKind.foldable_of_inverse (TokenKind.inverse_symm inverted))
      exact (lasting_cons_of_not (opposite ▸ inverse) earlier).symm
    · exact lasting_cons_of_not single _

theorem lasting_take (done : List Token) (token : Token) : lasting (take done token) = lasting (token :: done) := by
  cases foldable : token.isFoldable with
  | false => rw [take_other foldable]
  | true =>
    rw [lasting_cons_of_not (not_lasts_of_foldable foldable)]
    apply take_induction (fun made => lasting made = lasting done) rfl
    · intro inverse made inverted same
      rw [lasting_push inverted, same]
    · intro opaque'
      rw [opaque'] at foldable
      cases foldable

theorem lasting_normalForm (tokens : List Token) : lasting (normalForm tokens) = lasting tokens := by
  -- The stream taken in is held last first.
  have taken (done : List Token) : lasting (tokens.foldl take done) = lasting (tokens.reverse ++ done) := by
    induction tokens generalizing done with
    | nil => rfl
    | cons token tokens ih =>
      rw [List.foldl_cons, ih, lasting_append, lasting_take, ← lasting_append, List.reverse_cons, List.append_assoc]
      rfl
  rw [normalForm, lasting, List.filter_reverse, ← lasting, taken, lasting, List.append_nil, List.filter_reverse,
    List.reverse_reverse, lasting]

theorem counted_normalForm (counted : ∀ token ∈ tokens, token.Counted) :
    ∀ token ∈ normalForm tokens, token.Counted := by
  intro token member
  rcases mem_normalForm member with old | ⟨source, _, _, rfl⟩
  · exact counted token old
  · exact fun _ => Int.le_refl _

theorem length_push (kind inverse : TokenKind) (done : List Token) :
    (push kind inverse done).length ≤ done.length + 1 := by
  unfold push
  repeat' split
  all_goals simp
  omega

/-- Single tokens are cancelled or stay, one by one. -/
theorem length_normalForm (single : ∀ token ∈ tokens, token.amount = 1) :
    (normalForm tokens).length ≤ tokens.length := by
  have taken (done : List Token) : (tokens.foldl take done).length ≤ done.length + tokens.length := by
    induction tokens generalizing done with
    | nil => simp
    | cons token tokens ih =>
      have later := ih (fun other member => single other (by simp [member])) (take done token)
      have here : (take done token).length ≤ done.length + 1 := by
        cases foldable : token.isFoldable with
        | false => exact Nat.le_of_eq (by rw [take_other foldable, List.length_cons])
        | true =>
          obtain ⟨inverse, inverted, _⟩ := foldable_inverse foldable
          rw [take_inverted inverted, single token (by simp)]
          exact length_push token.kind inverse done
      rw [List.foldl_cons, List.length_cons]
      omega
  simpa [normalForm] using taken []

end Cancellation

namespace RunLength

theorem length_compress (tokens : List Token) : (compress tokens).length ≤ tokens.length := by
  have run (kind : TokenKind) (length : Nat) : (ofRun kind length).length ≤ length := by
    rw [length_ofRun, ceilDiv_maxCount, maxCount]
    split <;> omega
  have codes := codes_compress tokens
  generalize compress tokens = coded at codes
  induction codes with
  | nil => exact Nat.le_refl _
  | other _ _ ih => exact Nat.succ_le_succ ih
  | @run kind singles _ _ _ _ ih =>
    have short := run kind singles.length
    rw [List.length_append, List.length_append]
    omega

theorem lasting_compress (tokens : List Token) : lasting (compress tokens) = lasting tokens := by
  have codes := codes_compress tokens
  generalize compress tokens = coded at codes
  induction codes with
  | nil => rfl
  | other _ _ ih => exact lasting_cons_congr ih
  | @run kind run _ _ singles _ ih =>
    have before : lasting run = [] :=
      lasting_eq_nil fun token member => not_lasts_of_foldable (extendsRun_iff.mp (singles token member).1).1
    have behind : lasting (ofRun kind run.length) = [] := by
      cases run with
      | nil => rfl
      | cons first run =>
        obtain ⟨single, rfl⟩ := singles first (by simp)
        have brief := not_lasts_of_foldable (extendsRun_iff.mp single).1
        apply lasting_eq_nil
        intro token member
        obtain ⟨_, count, _, _, rfl⟩ := mem_ofRun member
        exact brief
    rw [lasting_append, lasting_append, before, behind, ih]

theorem counted_compress (counted : ∀ token ∈ tokens, token.Counted) : ∀ token ∈ compress tokens, token.Counted := by
  intro token member
  rcases mem_compress member with old | ⟨source, _, count, _, positive, _, rfl⟩
  · exact counted token old
  · exact fun _ => Int.ofNat_le.mpr positive

end RunLength

namespace Fusion

/-- What a rule finds at the head of a stream: additions, moves and clears, and a token of its own for them. -/
structure Spends (tokens : List Token) (found : Replacement) : Prop where
  fused : Fused found.token
  some : 0 < found.length
  plain : ∀ token ∈ tokens.take found.length, token.isFoldable = true ∨ token.kind = .clear

variable {found : Replacement}

private theorem foldable_or_clear (update : isUpdate token = true) : token.isFoldable = true ∨ token.kind = .clear := by
  rcases clear_or_addition update with clear | ⟨addition, _⟩
  · exact .inr clear
  · exact .inl (Token.foldable_of_addition addition)

theorem thereAndBack_spends (finds : thereAndBack tokens = .ok (some found)) : Spends tokens found := by
  match tokens with
  | [] | [_] | [_, _] => cases finds
  | go :: update :: back :: rest =>
    rw [thereAndBack] at finds
    split at finds
    · rename_i moves
      obtain ⟨move, updates⟩ := (Bool.and_eq_true _ _).mp moves
      obtain ⟨inverse, inverted, finds⟩ := bind_ok_iff.mp finds
      split at finds
      · rename_i returns
        have foldable : back.isFoldable = true := by
          have inverse := TokenKind.foldable_of_inverse (TokenKind.inverse_symm inverted)
          rwa [← returns.1] at inverse
        have plain : ∀ token ∈ [go, update, back], token.isFoldable = true ∨ token.kind = .clear := by
          simp [foldable_or_clear updates, Token.foldable_of_move move, foldable]
        split at finds
        · cases finds
          exact ⟨.inr (.inl rfl), Nat.succ_pos _, plain⟩
        · obtain ⟨token, made, finds⟩ := bind_ok_iff.mp finds
          obtain ⟨_, _, made⟩ := bind_ok_iff.mp made
          cases made
          cases finds
          exact ⟨.inl rfl, Nat.succ_pos _, plain⟩
      · cases finds
    · cases finds

theorem updateThenStep_spends (finds : updateThenStep tokens = .ok (some found)) : Spends tokens found := by
  match tokens with
  | [] | [_] => cases finds
  | update :: go :: rest =>
    rw [updateThenStep] at finds
    split at finds
    · rename_i steps
      obtain ⟨⟨addition, move⟩, _⟩ : (update.isAddition = true ∧ go.isMove = true) ∧ go.amount = 1 := by
        simpa using steps
      obtain ⟨token, made, finds⟩ := bind_ok_iff.mp finds
      obtain ⟨_, _, made⟩ := bind_ok_iff.mp made
      cases made
      cases finds
      refine ⟨.inr (.inr (.inl rfl)), Nat.succ_pos _, ?_⟩
      simp [Token.foldable_of_addition addition, Token.foldable_of_move move]
    · cases finds

theorem moveThenUpdate_spends (finds : moveThenUpdate tokens = .ok (some found)) : Spends tokens found := by
  match tokens with
  | [] | [_] => cases finds
  | go :: update :: rest =>
    rw [moveThenUpdate] at finds
    split at finds
    · rename_i moves
      obtain ⟨move, updates⟩ := (Bool.and_eq_true _ _).mp moves
      have plain : ∀ token ∈ [go, update], token.isFoldable = true ∨ token.kind = .clear := by
        simp [foldable_or_clear updates, Token.foldable_of_move move]
      split at finds
      · cases finds
        exact ⟨.inr (.inr (.inr (.inr rfl))), Nat.succ_pos _, plain⟩
      · cases finds
        exact ⟨.inr (.inr (.inr (.inl rfl))), Nat.succ_pos _, plain⟩
    · cases finds

theorem replacement?_spends (finds : replacement? tokens rules = .ok (some found)) : Spends tokens found := by
  have orElse {rule : Rule} {others : List Rule}
      (first : ∀ found, rule tokens = .ok (some found) → Spends tokens found)
      (second : ∀ found, replacement? tokens others = .ok (some found) → Spends tokens found) :
      ∀ found, replacement? tokens (rule :: others) = .ok (some found) → Spends tokens found := by
    intro found finds
    obtain ⟨found?, tried, finds⟩ := bind_ok_iff.mp finds
    cases found? with
    | some other =>
      cases finds
      exact first _ tried
    | none => exact second _ finds
  exact orElse (fun _ => thereAndBack_spends) (orElse (fun _ => updateThenStep_spends)
    (orElse (fun _ => moveThenUpdate_spends) fun _ none => by cases none)) _ finds

/-- What lasts goes through fusion. -/
theorem lasting_replaceAfter {taken : Nat} (replaced : replaceAfter taken tokens = .ok made) :
    lasting made = lasting (tokens.drop taken) := by
  induction tokens generalizing taken made with
  | nil => cases taken <;> cases replaced <;> rw [List.drop_nil]
  | cons token tokens ih =>
    cases taken with
    | succ taken => exact ih replaced
    | zero =>
      obtain ⟨found?, finds, replaced⟩ := bind_ok_iff.mp replaced
      cases found? with
      | none =>
        obtain ⟨rest, replacedRest, replaced⟩ := bind_ok_iff.mp replaced
        cases replaced
        exact lasting_cons_congr (ih replacedRest)
      | some found =>
        obtain ⟨rest, replacedRest, replaced⟩ := bind_ok_iff.mp replaced
        cases replaced
        obtain ⟨fused, several, plain⟩ := replacement?_spends finds
        have spent : lasting ((token :: tokens).take found.length) = [] := by
          refine lasting_eq_nil fun token member => ?_
          rcases plain token member with foldable | clear
          · exact not_lasts_of_foldable foldable
          · rw [clear]
            rfl
        -- The first token is replaced here, the others of the window are passed over by the rest of the run.
        obtain ⟨more, length⟩ : ∃ more, found.length = more + 1 := ⟨found.length - 1, by omega⟩
        have whole := List.take_append_drop found.length (token :: tokens)
        calc lasting (found.token :: rest) = lasting rest := lasting_cons_of_not fused.not_lasts rest
          _ = lasting ((token :: tokens).drop found.length) := by
            rw [ih replacedRest, length, Nat.add_sub_cancel, List.drop_succ_cons]
          _ = lasting (token :: tokens) := by
            rw [← List.nil_append (lasting _), ← spent, ← lasting_append, whole]

theorem lasting_replaceAll (replaced : replaceAll tokens = .ok made) : lasting made = lasting tokens :=
  lasting_replaceAfter replaced

end Fusion
end TapeScript
