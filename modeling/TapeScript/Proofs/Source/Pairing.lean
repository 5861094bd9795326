import TapeScript.Proofs.Brackets.Largest
import TapeScript.Proofs.Code

/-! The loops of a stream when its stray markers are left out: no other token is lost, every loop stays a loop,
and no more markers could have been kept. -/
namespace TapeScript

open Brackets

variable {tokens kept : List Token}

/-- Every loop marker has a partner. -/
def LoopsPaired (tokens : List Token) : Prop :=
  ∀ (place : Nat) (token : Token), tokens[place]? = some token → token.isMarker = true →
    ∃ other, Linked (loopPartners tokens) place other

theorem loops_matching (tokens : List Token) :
    Matching (·.kind == .loopOpen) (·.kind == .loopClose) tokens (loopPartners tokens) :=
  ((partners_matching _ _ tokens).1 _).mpr rfl

private theorem standsAt_marker {place : Nat} :
    standsAt (isBracket (·.kind == .loopOpen) (·.kind == .loopClose)) tokens place = true ↔
      ∃ token, tokens[place]? = some token ∧ token.isMarker = true := by
  rw [standsAt, Option.any_eq_true]
  rfl

private theorem loopsPaired_iff_complete :
    LoopsPaired tokens ↔ Complete (·.kind == .loopOpen) (·.kind == .loopClose) tokens := by
  rw [LoopsPaired, Complete]
  refine forall_congr' fun place => ?_
  rw [standsAt_marker]
  constructor
  · rintro every ⟨token, here, marker⟩
    exact every token here marker
  · exact fun every token here marker => every ⟨token, here, marker⟩

theorem loopsPaired_iff_nested : LoopsPaired tokens ↔ Nested tokens :=
  loopsPaired_iff_complete.trans complete_iff_balanced

/-- A stream and what is left of it without its stray markers. The tokens kept are those that are no markers or
have a partner, with the partners they had at the places they come from. No balanced subsequence has more markers,
whatever else it leaves out. -/
structure WithoutStrays (tokens kept : List Token) : Prop where
  others : kept.filter (!·.isMarker) = tokens.filter (!·.isMarker)
  paired : LoopsPaired kept
  places : ∃ places, Selection tokens kept places ∧
    (∀ (place : Nat), place ∈ places ↔ ∃ token, tokens[place]? = some token ∧
      (token.isMarker = true → ∃ other, Linked (loopPartners tokens) place other)) ∧
    ∀ here there first second : Nat, places[here]? = some first → places[there]? = some second →
      (Linked (loopPartners kept) here there ↔ Linked (loopPartners tokens) first second)
  largest : ∀ other : List Token, other.Sublist tokens → LoopsPaired other →
    other.countP Token.isMarker ≤ kept.countP Token.isMarker
  unchanged : kept = tokens ↔ LoopsPaired tokens

/-- The stray markers are left out and nothing else, and what is left keeps its partners. -/
private theorem exists_places (tokens : List Token) : ∃ places, Selection tokens (pairedOnly tokens) places ∧
    (∀ (place : Nat), place ∈ places ↔ ∃ token, tokens[place]? = some token ∧
      (token.isMarker = true → ∃ other, Linked (loopPartners tokens) place other)) ∧
    ∀ here there first second : Nat, places[here]? = some first → places[there]? = some second →
      (Linked (loopPartners (pairedOnly tokens)) here there ↔ Linked (loopPartners tokens) first second) := by
  have matching := loops_matching tokens
  obtain ⟨places, selection, member⟩ :=
    selection_answered (·.kind == .loopOpen) (·.kind == .loopClose) matching.length
  have closed (place other : Nat) (linked : Linked (loopPartners tokens) place other) : other ∈ places :=
    (member other).mpr ⟨(matching.linked_lt linked).2, fun _ => ⟨place, matching.symmetric linked⟩⟩
  refine ⟨places, selection, fun place => ?_, fun here there first second => selection.linked_iff closed⟩
  rw [member, standsAt_marker]
  constructor
  · rintro ⟨inside, paired⟩
    exact ⟨_, List.getElem?_eq_getElem inside, fun marker => paired ⟨_, List.getElem?_eq_getElem inside, marker⟩⟩
  · rintro ⟨token, here, paired⟩
    refine ⟨(List.getElem?_eq_some_iff.mp here).1, fun ⟨other, there, marker⟩ => paired ?_⟩
    rwa [Option.some.inj (here.symm.trans there)]

/-- Without its stray markers a stream has all its loops and as many markers as can nest. -/
theorem pairedOnly_withoutStrays (tokens : List Token) : WithoutStrays tokens (pairedOnly tokens) := by
  have length := (loops_matching tokens).length
  obtain ⟨kept, sifted⟩ := exists_sifted (fun token : Token => token.kind == .loopOpen) (·.kind == .loopClose) tokens
  have same := pairedOnly_eq sifted
  refine ⟨?_, ?_, exists_places tokens, ?_, ?_⟩
  · exact filter_answered (fun token : Token => token.kind == .loopOpen) (·.kind == .loopClose) length
  · rw [loopsPaired_iff_nested, same]
    exact sifted.balanced
  · intro other chosen paired
    rw [same]
    exact sifted.count_brackets_le chosen (loopsPaired_iff_nested.mp paired)
  · rw [loopsPaired_iff_complete]
    exact answered_eq_self_iff (fun token : Token => token.kind == .loopOpen) (·.kind == .loopClose) length

end TapeScript
