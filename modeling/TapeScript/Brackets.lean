/-! Pairing of opening and closing items the way brackets nest. -/
namespace TapeScript.Brackets

variable {α : Type}

/-- Walk over the items with the positions of the openers not closed yet, innermost first, and the
partners of the items passed. An item that is both opener and closer opens. -/
def pair (opens closes : α → Bool) : List α → List Nat → Array (Option Nat) → Array (Option Nat)
  | [], _, partners => partners
  | item :: rest, waiting, partners =>
    let here := partners.size
    let partners := partners.push none
    if opens item then pair opens closes rest (here :: waiting) partners
    else if closes item then
      match waiting with
      | [] => pair opens closes rest [] partners
      | opener :: waiting =>
        pair opens closes rest waiting
          ((partners.setIfInBounds here (some opener)).setIfInBounds opener (some here))
    else pair opens closes rest waiting partners

/-- The position of each item's partner; none for unmatched ones and for anything else. -/
def partners (opens closes : α → Bool) (items : List α) : List (Option Nat) :=
  (pair opens closes items [] #[]).toList

end TapeScript.Brackets
