import TapeScript.Proofs.Source.Pairing

/-! How many loops are around each token of a stream. The number follows from the partners of the markers, and
counting markers from the start comes to the same. -/
namespace TapeScript

open Brackets

/-- How many loops are around a place. The markers of a loop stand outside of it. -/
def loopsAround (tokens : List Token) (place : Nat) : Nat :=
  (List.range place).countP fun opener => (loopPartners tokens)[opener]?.join.any (place < ·)

/-- How many loops have begun before a place and not ended before it. -/
def loopsBegun (tokens : List Token) (place : Nat) : Nat :=
  (List.range place).countP fun opener => (loopPartners tokens)[opener]?.join.any (place ≤ ·)

variable {tokens : List Token} {token : Token} {place other : Nat}

private theorem any_partner {test : Nat → Bool} :
    (loopPartners tokens)[place]?.join.any test = true ↔
      ∃ other, Linked (loopPartners tokens) place other ∧ test other = true := by
  rw [Option.any_eq_true]
  simp only [Option.join_eq_some_iff, Linked]

/-- An opener that is paired ends later. -/
theorem linked_opener (here : tokens[place]? = some token) (opening : token.kind = .loopOpen)
    (linked : Linked (loopPartners tokens) place other) : place < other :=
  (loops_matching tokens).after_opener linked (by simp [standsAt, here, opening])

theorem linked_closer (here : tokens[place]? = some token) (closing : token.kind = .loopClose)
    (linked : Linked (loopPartners tokens) place other) : other < place :=
  (loops_matching tokens).before_closer linked (by simp [standsAt, here, isCloser, closing])

/-- What begins before a place and ends there is closed by the token there. -/
theorem closer_of_linked (here : tokens[place]? = some token) (linked : Linked (loopPartners tokens) other place)
    (before : other < place) : token.kind = .loopClose := by
  have closing := ((loops_matching tokens).opens_of_before linked before).2
  simp only [standsAt, here, isCloser, Option.any_some, Bool.and_eq_true, beq_iff_eq] at closing
  exact closing.2

theorem loopsBegun_other (here : tokens[place]? = some token) (plain : token.kind ≠ .loopClose) :
    loopsBegun tokens place = loopsAround tokens place := by
  apply List.countP_congr
  intro opener member
  rw [List.mem_range] at member
  simp only [any_partner, decide_eq_true_eq]
  constructor
  · rintro ⟨last, linked, reaches⟩
    refine ⟨last, linked, Nat.lt_of_le_of_ne reaches ?_⟩
    rintro rfl
    exact plain (closer_of_linked here linked member)
  · rintro ⟨last, linked, beyond⟩
    exact ⟨last, linked, Nat.le_of_lt beyond⟩

/-- Two counts differ by one if the tests differ at one number. -/
private theorem countP_range_succ {first second : Nat → Bool} {length special : Nat} (inside : special < length)
    (same : ∀ n < length, n ≠ special → first n = second n) (counted : first special = true)
    (left : second special = false) :
    (List.range length).countP first = (List.range length).countP second + 1 := by
  have order := List.perm_cons_erase (List.mem_range.mpr inside)
  rw [order.countP_eq, order.countP_eq, List.countP_cons_of_pos counted, List.countP_cons_of_neg (by simp [left])]
  congr 1
  apply List.countP_congr
  intro n member
  obtain ⟨different, member⟩ := (List.nodup_range.mem_erase_iff).mp member
  rw [same n (List.mem_range.mp member) different]

theorem loopsBegun_closer (paired : LoopsPaired tokens) (here : tokens[place]? = some token)
    (closing : token.kind = .loopClose) : loopsBegun tokens place = loopsAround tokens place + 1 := by
  obtain ⟨opener, linked⟩ := paired place token here (by simp [Token.isMarker, closing])
  have before := linked_closer here closing linked
  have back := (loops_matching tokens).symmetric linked
  have ends {n last : Nat} (found : Linked (loopPartners tokens) n last) : last = place ↔ n = opener := by
    constructor
    · rintro rfl
      exact Matching.linked_unique ((loops_matching tokens).symmetric found) linked
    · rintro rfl
      exact Matching.linked_unique found back
  refine countP_range_succ before (fun n inside different => ?_) (any_partner.mpr ⟨place, back, by simp⟩) ?_
  · rw [Bool.eq_iff_iff, any_partner, any_partner]
    refine exists_congr fun last => and_congr_right fun found => ?_
    have apart : last ≠ place := fun same => different ((ends found).mp same)
    simp only [decide_eq_true_eq]
    omega
  · rw [Bool.eq_false_iff, Ne, any_partner]
    rintro ⟨last, found, beyond⟩
    rw [(ends found).mpr rfl] at beyond
    simp at beyond

/-- One more token: a loop that begins is open behind it. -/
theorem loopsBegun_succ (paired : LoopsPaired tokens) (here : tokens[place]? = some token) :
    loopsBegun tokens (place + 1) = loopsAround tokens place + if token.kind = .loopOpen then 1 else 0 := by
  have last : (loopPartners tokens)[place]?.join.any (place + 1 ≤ ·) = decide (token.kind = .loopOpen) := by
    rw [Bool.eq_iff_iff, any_partner, decide_eq_true_eq]
    constructor
    · rintro ⟨other, linked, ahead⟩
      have opening := ((loops_matching tokens).opens_of_before linked (of_decide_eq_true ahead)).1
      simpa [standsAt, here] using opening
    · intro opening
      obtain ⟨other, linked⟩ := paired place token here (by simp [Token.isMarker, opening])
      exact ⟨other, linked, decide_eq_true (linked_opener here opening linked)⟩
  rw [loopsBegun, List.range_succ, List.countP_append, List.countP_singleton, last]
  simp only [decide_eq_true_eq]
  rfl

theorem loopsBegun_end (tokens : List Token) : loopsBegun tokens tokens.length = 0 := by
  apply List.countP_eq_zero.mpr
  intro opener _
  rw [any_partner]
  rintro ⟨other, linked, beyond⟩
  exact absurd ((loops_matching tokens).linked_lt linked).2 (Nat.not_lt.mpr (of_decide_eq_true beyond))

end TapeScript
