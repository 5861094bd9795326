import Mathlib.Data.List.Basic
import TapeScript.Proofs.Brackets.Matching

/-! Items that are left when some are left out. If nothing is left out that has a partner, everything keeps its
partner, at other places. If what is left nests, the stray brackets are the fewest that can be left out. -/
namespace TapeScript.Brackets

variable {α : Type} {opens closes kind : α → Bool} {items kept : List α} {places : List Nat}
  {table : List (Option Nat)} {first second place other : Nat}

/-- Some of the items in their order, and the places they had. -/
structure Selection (items kept : List α) (places : List Nat) : Prop where
  ordered : places.Pairwise (· < ·)
  found : places.map (items[·]?) = kept.map some

namespace Selection

theorem getElem?_eq (selection : Selection items kept places) (here : places[place]? = some other) :
    kept[place]? = items[other]? := by
  have same := congrArg (·[place]?) selection.found
  simp only [List.getElem?_map, here, Option.map_some] at same
  cases found : kept[place]? with
  | none => simp [found] at same
  | some item => simpa [found] using same.symm

theorem length_eq (selection : Selection items kept places) : kept.length = places.length := by
  simpa using (congrArg List.length selection.found).symm

theorem exists_place (selection : Selection items kept places) (inside : place < kept.length) :
    ∃ other, places[place]? = some other :=
  ⟨_, List.getElem?_eq_getElem (selection.length_eq ▸ inside)⟩

/-- The order of the places is that of the items. -/
theorem lt_iff (selection : Selection items kept places) (here : places[place]? = some first)
    (there : places[other]? = some second) : place < other ↔ first < second := by
  obtain ⟨inside, rfl⟩ := List.getElem?_eq_some_iff.mp here
  obtain ⟨insideOther, rfl⟩ := List.getElem?_eq_some_iff.mp there
  have increasing := List.pairwise_iff_getElem.mp selection.ordered
  constructor
  · exact increasing place other inside insideOther
  · intro less
    rcases Nat.lt_trichotomy place other with before | rfl | behind
    · exact before
    · exact absurd less (Nat.lt_irrefl _)
    · exact absurd (increasing other place insideOther inside behind) (Nat.lt_asymm less)

theorem standsAt_eq (selection : Selection items kept places) (here : places[place]? = some other) :
    standsAt kind kept place = standsAt kind items other := by
  rw [standsAt, standsAt, selection.getElem?_eq here]

end Selection

/-- The partners of the items at some places, by their new places. -/
def restrict (places : List Nat) (table : List (Option Nat)) : List (Option Nat) :=
  places.map fun place => table[place]?.join.map places.idxOf

theorem linked_restrict (ordered : places.Pairwise (· < ·))
    (closed : ∀ place other, Linked table place other → other ∈ places) :
    Linked (restrict places table) place other ↔
      ∃ first second, places[place]? = some first ∧ places[other]? = some second ∧ Linked table first second := by
  have distinct : places.Nodup := ordered.imp Nat.ne_of_lt
  simp only [Linked, restrict, List.getElem?_map, Option.map_eq_some_iff, Option.join_eq_some_iff]
  constructor
  · rintro ⟨first, here, second, linked, rfl⟩
    exact ⟨first, second, here, List.getElem?_idxOf (closed _ _ linked), linked⟩
  · rintro ⟨first, second, here, there, linked⟩
    obtain ⟨inside, rfl⟩ := List.getElem?_eq_some_iff.mp there
    exact ⟨first, here, _, linked, distinct.idxOf_getElem other inside⟩

/-- Items of which none is left out that has a partner are matched as they were. -/
theorem Selection.matching (selection : Selection items kept places) (matching : Matching opens closes items table)
    (closed : ∀ place other, Linked table place other → other ∈ places) :
    Matching opens closes kept (restrict places table) := by
  have links (place other : Nat) : Linked (restrict places table) place other ↔
      ∃ first second, places[place]? = some first ∧ places[other]? = some second ∧ Linked table first second :=
    linked_restrict selection.ordered closed
  have lone {place first : Nat} (here : places[place]? = some first) (lone : Lone (restrict places table) place) :
      Lone table first := by
    intro second linked
    obtain ⟨other, inside, there⟩ := List.mem_iff_getElem.mp (closed _ _ linked)
    exact lone other ((links _ _).mpr ⟨first, second, here, List.getElem?_eq_some_iff.mpr ⟨inside, there⟩, linked⟩)
  have ahead {place other : Nat} (linked : Linked (restrict places table) place other) (before : place < other) :
      standsAt opens kept place = true ∧ standsAt (isCloser opens closes) kept other = true := by
    obtain ⟨first, second, here, there, linked⟩ := (links _ _).mp linked
    rw [selection.standsAt_eq here, selection.standsAt_eq there]
    exact matching.opens_of_before linked ((selection.lt_iff here there).mp before)
  have symmetric {place other : Nat} (linked : Linked (restrict places table) place other) :
      Linked (restrict places table) other place := by
    obtain ⟨first, second, here, there, linked⟩ := (links _ _).mp linked
    exact (links _ _).mpr ⟨second, first, there, here, matching.symmetric linked⟩
  refine ⟨by simp [restrict, selection.length_eq], symmetric, ?_, ?_, ?_, ?_⟩
  · intro place other linked
    rcases Nat.lt_trichotomy place other with before | rfl | behind
    · rw [Nat.min_eq_left (Nat.le_of_lt before), Nat.max_eq_right (Nat.le_of_lt before)]
      exact ahead linked before
    · obtain ⟨first, second, here, there, linked⟩ := (links _ _).mp linked
      obtain rfl := Option.some.inj (here.symm.trans there)
      rcases matching.ordered linked with less | less <;> exact absurd less (Nat.lt_irrefl _)
    · rw [Nat.min_eq_right (Nat.le_of_lt behind), Nat.max_eq_left (Nat.le_of_lt behind)]
      exact ahead (symmetric linked) behind
  · intro first second third fourth outer inner after before crossing
    obtain ⟨_, _, firstAt, thirdAt, outer⟩ := (links _ _).mp outer
    obtain ⟨_, _, secondAt, fourthAt, inner⟩ := (links _ _).mp inner
    exact matching.apart outer inner ((selection.lt_iff firstAt secondAt).mp after)
      ((selection.lt_iff secondAt thirdAt).mp before) ((selection.lt_iff thirdAt fourthAt).mp crossing)
  · intro first place last linked after before bracket
    obtain ⟨_, _, firstAt, lastAt, linked⟩ := (links _ _).mp linked
    have inside : place < kept.length := by
      have bound := (List.getElem?_eq_some_iff.mp lastAt).1
      rw [selection.length_eq]
      omega
    obtain ⟨middle, here⟩ := selection.exists_place inside
    rw [selection.standsAt_eq here, selection.standsAt_eq here] at bracket
    obtain ⟨partner, found, low, high⟩ := matching.inside linked ((selection.lt_iff firstAt here).mp after)
      ((selection.lt_iff here lastAt).mp before) bracket
    obtain ⟨other, within, there⟩ := List.mem_iff_getElem.mp (closed _ _ found)
    have there := List.getElem?_eq_some_iff.mpr ⟨within, there⟩
    exact ⟨other, (links _ _).mpr ⟨middle, partner, here, there, found⟩, (selection.lt_iff firstAt there).mpr low,
      (selection.lt_iff there lastAt).mpr high⟩
  · intro opener closer opening loneOpener closing loneCloser order
    obtain ⟨_, openerAt⟩ := selection.exists_place (standsAt_lt opening)
    obtain ⟨_, closerAt⟩ := selection.exists_place (standsAt_lt closing)
    rw [selection.standsAt_eq openerAt] at opening
    rw [selection.standsAt_eq closerAt] at closing
    exact matching.stray opening (lone openerAt loneOpener) closing (lone closerAt loneCloser)
      ((selection.lt_iff openerAt closerAt).mp order)

/-- Two items are partners after the others are left out if they were before. -/
theorem Selection.linked_iff (selection : Selection items kept places)
    (closed : ∀ place other, Linked (partners opens closes items) place other → other ∈ places)
    (here : places[place]? = some first) (there : places[other]? = some second) :
    Linked (partners opens closes kept) place other ↔ Linked (partners opens closes items) first second := by
  have before := ((partners_matching opens closes items).1 _).mpr rfl
  rw [← ((partners_matching opens closes kept).1 _).mp (selection.matching before closed),
    linked_restrict selection.ordered closed]
  constructor
  · rintro ⟨_, _, hereToo, thereToo, linked⟩
    obtain rfl := Option.some.inj (here.symm.trans hereToo)
    obtain rfl := Option.some.inj (there.symm.trans thereToo)
    exact linked
  · exact fun linked => ⟨first, second, here, there, linked⟩

end TapeScript.Brackets
