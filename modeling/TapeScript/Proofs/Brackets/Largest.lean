import Mathlib.Data.List.Induction
import TapeScript.Proofs.Brackets.Selection

/-! Leaving out the stray brackets of some items. What is left nests, nothing else is lost, and of all the ways
to make the items nest by leaving some out it is one that keeps the most brackets. -/
namespace TapeScript.Brackets

variable {α β : Type} {opens closes keeps : α → Bool} {waits : Bool} {items kept other : List α}
  {table : List (Option Nat)} {places : List Nat} {place : Nat}

/-- Whether an item is an opener or a closer. -/
def isBracket (opens closes : α → Bool) (item : α) : Bool := opens item || closes item

/-- Every bracket has a partner. -/
def Complete (opens closes : α → Bool) (items : List α) : Prop :=
  ∀ place, standsAt (isBracket opens closes) items place = true →
    ∃ other, Linked (partners opens closes items) place other

/-- The places of the items of some kind. -/
def placesWhere (keeps : α → Bool) (items : List α) : List Nat :=
  (List.range items.length).filter (standsAt keeps items)

theorem mem_placesWhere : place ∈ placesWhere keeps items ↔ standsAt keeps items place = true := by
  rw [placesWhere, List.mem_filter, List.mem_range, and_iff_right_iff_imp]
  exact standsAt_lt

theorem placesWhere_snoc (items : List α) (item : α) :
    placesWhere keeps (items ++ [item]) = placesWhere keeps items ++ if keeps item then [items.length] else [] := by
  have before : (List.range items.length).filter (standsAt keeps (items ++ [item])) = placesWhere keeps items := by
    apply List.filter_congr
    intro place inside
    rw [List.mem_range] at inside
    rw [standsAt, standsAt, List.getElem?_append_left inside]
  have last : standsAt keeps (items ++ [item]) items.length = keeps item := by simp [standsAt]
  rw [placesWhere, List.length_append, List.length_singleton, List.range_succ, List.filter_append, before,
    List.filter_singleton, last, Bool.cond_eq_ite]

theorem selection_filter (keeps : α → Bool) (items : List α) :
    Selection items (items.filter keeps) (placesWhere keeps items) where
  ordered := List.Pairwise.filter _ List.pairwise_lt_range
  found := by
    induction items using List.reverseRecOn with
    | nil => rfl
    | append_singleton items item ih =>
      have early : (placesWhere keeps items).map ((items ++ [item])[·]?) = (items.filter keeps).map some := by
        rw [← ih]
        apply List.map_congr_left
        intro place member
        exact List.getElem?_append_left (standsAt_lt (mem_placesWhere.mp member))
      rw [placesWhere_snoc, List.map_append, early, List.filter_append, List.map_append, List.filter_singleton]
      cases keeps item <;> simp

theorem Selection.map (selection : Selection items kept places) (view : α → β) :
    Selection (items.map view) (kept.map view) places where
  ordered := selection.ordered
  found := by
    have mapped := congrArg (List.map (Option.map view)) selection.found
    simpa [List.map_map, Function.comp_def] using mapped

/-- Whether an item stays when stray brackets are left out: it is no bracket, or it has a partner. -/
private def isPaired (opens closes : α → Bool) (entry : α × Option Nat) : Bool :=
  !(opens entry.1 || closes entry.1) || entry.2.isSome

private theorem answered_eq (items : List α) (table : List (Option Nat)) : answered opens closes items table =
    ((items.zip table).filter (isPaired opens closes)).map Prod.fst := rfl

private theorem standsAt_zip (length : table.length = items.length) :
    standsAt (isPaired opens closes) (items.zip table) place = true ↔ place < items.length ∧
      (standsAt (isBracket opens closes) items place = true → ∃ other, Linked table place other) := by
  by_cases inside : place < items.length
  · obtain ⟨item, here⟩ : ∃ item, items[place]? = some item := ⟨_, List.getElem?_eq_getElem inside⟩
    obtain ⟨partner?, there⟩ : ∃ partner?, table[place]? = some partner? :=
      ⟨_, List.getElem?_eq_getElem (length ▸ inside)⟩
    have entry : (items.zip table)[place]? = some (item, partner?) := List.getElem?_zip_eq_some.mpr ⟨here, there⟩
    simp only [standsAt, entry, here, Option.any_some, isPaired, inside, true_and, Linked, there, isBracket]
    cases partner? <;> cases opens item <;> cases closes item <;> simp
  · have outside : (items.zip table).length ≤ place := by
      rw [List.length_zip]
      omega
    rw [standsAt, List.getElem?_eq_none outside]
    simp [inside]

/-- The brackets without a partner are left out, and nothing else is. -/
theorem selection_answered (opens closes : α → Bool) (length : table.length = items.length) :
    ∃ places, Selection items (answered opens closes items table) places ∧
      ∀ place, place ∈ places ↔ place < items.length ∧
        (standsAt (isBracket opens closes) items place = true → ∃ other, Linked table place other) := by
  have selection := (selection_filter (isPaired opens closes) (items.zip table)).map Prod.fst
  rw [List.map_fst_zip (Nat.le_of_eq length.symm)] at selection
  exact ⟨_, selection, fun place => mem_placesWhere.trans (standsAt_zip length)⟩

/-- Nothing is left out if every bracket has a partner, and only then. -/
theorem answered_eq_self_iff (opens closes : α → Bool) (length : table.length = items.length) :
    answered opens closes items table = items ↔
      ∀ place, standsAt (isBracket opens closes) items place = true → ∃ other, Linked table place other := by
  have whole : answered opens closes items table = items ↔
      ∀ entry ∈ items.zip table, isPaired opens closes entry = true := by
    constructor
    · intro same
      have lengths := congrArg List.length same
      rw [answered_eq, List.length_map] at lengths
      apply List.length_filter_eq_length_iff.mp
      rw [List.length_zip, length, Nat.min_self]
      exact lengths
    · intro every
      rw [answered_eq, List.filter_eq_self.mpr every, List.map_fst_zip (Nat.le_of_eq length.symm)]
  rw [whole]
  constructor
  · intro every place
    by_cases inside : place < items.length
    · have within : place < (items.zip table).length := by
        rw [List.length_zip]
        omega
      refine ((standsAt_zip length).mp ?_).2
      rw [standsAt, List.getElem?_eq_getElem within, Option.any_some]
      exact every _ (List.getElem_mem within)
    · exact fun stands => absurd (standsAt_lt stands) inside
  · intro every entry member
    obtain ⟨place, within, rfl⟩ := List.mem_iff_getElem.mp member
    have inside : place < items.length := by
      rw [List.length_zip] at within
      omega
    have stands := (standsAt_zip length).mpr ⟨inside, every place⟩
    rwa [standsAt, List.getElem?_eq_getElem within, Option.any_some] at stands

/-- Items that are no brackets stay. -/
theorem filter_answered (opens closes : α → Bool) (length : table.length = items.length) :
    (answered opens closes items table).filter (!isBracket opens closes ·) =
      items.filter (!isBracket opens closes ·) := by
  have stays (entry : α × Option Nat) :
      (!isBracket opens closes entry.1 && isPaired opens closes entry) = !isBracket opens closes entry.1 := by
    rw [isPaired, isBracket]
    cases opens entry.1 || closes entry.1 <;> rfl
  calc (answered opens closes items table).filter (!isBracket opens closes ·)
    _ = ((items.zip table).filter ((!isBracket opens closes ·) ∘ Prod.fst)).map Prod.fst := by
      rw [answered_eq, List.filter_map, List.filter_filter]
      exact congrArg _ (List.filter_congr fun entry _ => stays entry)
    _ = items.filter (!isBracket opens closes ·) := by
      rw [← List.filter_map, List.map_fst_zip (Nat.le_of_eq length.symm)]

theorem length_partners (opens closes : α → Bool) (items : List α) :
    (partners opens closes items).length = items.length :=
  (((partners_matching opens closes items).1 _).mpr rfl).length

/-- Brackets nest if each has a partner, and only then. -/
theorem complete_iff_balanced : Complete opens closes items ↔ Balanced opens closes items := by
  rw [Complete, ← answered_eq_self_iff opens closes (length_partners opens closes items)]
  constructor
  · intro same
    obtain ⟨kept, sifted⟩ := exists_sifted opens closes items
    rw [answered_partners sifted] at same
    exact same ▸ sifted.balanced
  · intro balanced
    have sifted : Sifted opens closes false (items ++ []) (items ++ []) := .after_balanced balanced .nil
    simpa using answered_partners sifted

/-- From every item on there are at least as many closers as openers. -/
def Closing (opens closes : α → Bool) : List α → Prop
  | [] => True
  | item :: items =>
    (item :: items).countP opens ≤ (item :: items).countP (isCloser opens closes) ∧ Closing opens closes items

theorem Closing.le (closing : Closing opens closes items) :
    items.countP opens ≤ items.countP (isCloser opens closes) := by
  cases items with
  | nil => exact Nat.le_refl _
  | cons => exact closing.1

theorem Closing.of_append {front : List α} (closing : Closing opens closes (front ++ items)) :
    Closing opens closes items := by
  induction front with
  | nil => exact closing
  | cons item front ih => exact ih closing.2

theorem Balanced.count_eq (balanced : Balanced opens closes items) :
    items.countP opens = items.countP (isCloser opens closes) := by
  induction balanced with
  | nil => rfl
  | other opening closing _ ih => simp [isCloser, opening, closing, ih]
  | pair opening _ plain closing _ ihInner ih =>
    simp only [List.countP_append, List.countP_cons, opening, plain, closing, isCloser, ihInner, ih]
    simp
    omega

theorem Balanced.count_brackets (balanced : Balanced opens closes items) :
    items.countP (isBracket opens closes) = 2 * items.countP opens := by
  induction balanced with
  | nil => rfl
  | other opening closing _ ih => simp [isBracket, opening, closing, ih]
  | pair opening _ plain closing _ ihInner ih =>
    simp only [List.countP_append, List.countP_cons, opening, plain, closing, isBracket, ihInner, ih]
    simp
    omega

theorem Balanced.closing (balanced : Balanced opens closes items) (after : Closing opens closes other) :
    Closing opens closes (items ++ other) := by
  induction balanced generalizing other with
  | nil => exact after
  | other opening closing _ ih =>
    refine ⟨?_, ih after⟩
    have rest := (ih after).le
    simpa [isCloser, opening, closing] using rest
  | @pair opener closer inner rest opening inside plain closing _ ihInner ih =>
    have tail := ih after
    have last : Closing opens closes (closer :: rest ++ other) := by
      refine ⟨?_, tail⟩
      have counts := tail.le
      simp [isCloser, plain, closing] at counts ⊢
      omega
    have whole := ihInner last
    rw [List.append_assoc]
    refine ⟨?_, whole⟩
    have counts := tail.le
    have same := inside.count_eq
    simp [isCloser, plain, closing, opening] at counts same ⊢
    omega

/-- While an opener waits in vain, no closer is stray. -/
theorem Sifted.count_closers (sifted : Sifted opens closes true items kept) :
    items.countP (isCloser opens closes) = kept.countP (isCloser opens closes) := by
  generalize waiting : true = waits at sifted
  induction sifted with
  | nil => rfl
  | other _ _ _ ih => simp [List.countP_cons, ih waiting]
  | pair _ _ _ _ _ ih => simp [List.countP_append, List.countP_cons, ih waiting]
  | closer => cases waiting
  | opener opening _ ih => simp [isCloser, opening, ih rfl]

/-- What is kept has as many openers as any choice of items in which enough closers follow. Openers are lost
only once no closer is stray any more, and then the closers bound their number. -/
theorem Sifted.count_openers_le (sifted : Sifted opens closes waits items kept) (chosen : other.Sublist items)
    (closing : Closing opens closes other) : other.countP opens ≤ kept.countP opens := by
  induction sifted generalizing other with
  | nil => simp [List.sublist_nil.mp chosen]
  | other opening _ _ ih =>
    rw [List.countP_cons_of_neg (by simp [opening])]
    cases chosen with
    | cons _ chosen => exact ih chosen closing
    | cons_cons _ chosen =>
      rw [List.countP_cons_of_neg (by simp [opening])]
      exact ih chosen closing.2
  | @pair _ opener closer inner items kept opening inside plain _ _ ih =>
    have split (rest : List α) : opener :: inner ++ closer :: rest = opener :: inner ++ [closer] ++ rest := by simp
    rw [split] at chosen ⊢
    obtain ⟨front, rest, rfl, chosenFront, chosenRest⟩ := List.sublist_append_iff.mp chosen
    rw [List.countP_append, List.countP_append]
    exact Nat.add_le_add chosenFront.countP_le (ih chosenRest closing.of_append)
  | closer plain _ _ ih =>
    cases chosen with
    | cons _ chosen => exact ih chosen closing
    | cons_cons _ chosen =>
      rw [List.countP_cons_of_neg (by simp [plain])]
      exact ih chosen closing.2
  | @opener _ item items kept opening sifted _ =>
    have plain : isCloser opens closes item = false := by simp [isCloser, opening]
    calc other.countP opens
      _ ≤ other.countP (isCloser opens closes) := closing.le
      _ ≤ (item :: items).countP (isCloser opens closes) := chosen.countP_le
      _ = items.countP (isCloser opens closes) := List.countP_cons_of_neg (by simp [plain])
      _ = kept.countP (isCloser opens closes) := sifted.count_closers
      _ = kept.countP opens := sifted.balanced.count_eq.symm

/-- No choice of items that nest has more brackets than what is kept. -/
theorem Sifted.count_brackets_le (sifted : Sifted opens closes waits items kept) (chosen : other.Sublist items)
    (balanced : Balanced opens closes other) :
    other.countP (isBracket opens closes) ≤ kept.countP (isBracket opens closes) := by
  rw [balanced.count_brackets, sifted.balanced.count_brackets]
  have closing : Closing opens closes (other ++ []) := balanced.closing trivial
  rw [List.append_nil] at closing
  exact Nat.mul_le_mul_left 2 (sifted.count_openers_le chosen closing)

end TapeScript.Brackets
