import TapeScript.Proofs.Brackets

/-! The pairing of brackets by its properties. Pairs do not cross, a pair leaves no bracket inside it alone,
and no opener is left alone before a closer that is. The walk over the items pairs them so, and there is no
other way to do it. -/
namespace TapeScript.Brackets

variable {α : Type} {opens closes kind : α → Bool} {items done : List α} {item : α}
  {table others more : List (Option Nat)} {opener closer place other : Nat}

/-- Whether an item of some kind stands at a place. -/
def standsAt (kind : α → Bool) (items : List α) (place : Nat) : Bool := items[place]?.any kind

/-- Whether an item closes; one that is both opens. -/
def isCloser (opens closes : α → Bool) (item : α) : Bool := !opens item && closes item

/-- The partner of the first place is the second. -/
def Linked (table : List (Option Nat)) (place other : Nat) : Prop := table[place]? = some (some other)

def Lone (table : List (Option Nat)) (place : Nat) : Prop := ∀ other, ¬Linked table place other

/-- Partners of items as brackets nest. The smaller of two partners is an opener and the larger a closer, no two
pairs cross, and a bracket inside a pair has its partner there too. Of the brackets without a partner, no opener
stands before a closer. -/
structure Matching (opens closes : α → Bool) (items : List α) (table : List (Option Nat)) : Prop where
  length : table.length = items.length
  symmetric {place other : Nat} : Linked table place other → Linked table other place
  ends {place other : Nat} : Linked table place other → standsAt opens items (min place other) = true ∧
    standsAt (isCloser opens closes) items (max place other) = true
  apart {first second third fourth : Nat} : Linked table first third → Linked table second fourth →
    first < second → second < third → ¬third < fourth
  inside {first place last : Nat} : Linked table first last → first < place → place < last →
    (standsAt opens items place = true ∨ standsAt (isCloser opens closes) items place = true) →
    ∃ other, Linked table place other ∧ first < other ∧ other < last
  stray {opener closer : Nat} : standsAt opens items opener = true → Lone table opener →
    standsAt (isCloser opens closes) items closer = true → Lone table closer → ¬opener < closer

theorem standsAt_lt (stands : standsAt kind items place = true) : place < items.length := by
  rw [standsAt, Option.any_eq_true] at stands
  obtain ⟨item, found, _⟩ := stands
  exact (List.getElem?_eq_some_iff.mp found).1

theorem standsAt_snoc : standsAt kind (done ++ [item]) place = true ↔
    standsAt kind done place = true ∨ place = done.length ∧ kind item = true := by
  rw [standsAt, standsAt]
  rcases Nat.lt_trichotomy place done.length with before | rfl | behind
  · have apart : place ≠ done.length := by omega
    simp [List.getElem?_append_left before, apart]
  · simp
  · have apart : place ≠ done.length := by omega
    have outside : (done ++ [item]).length ≤ place := by rw [List.length_append, List.length_singleton]; omega
    simp [List.getElem?_eq_none outside, List.getElem?_eq_none (Nat.le_of_lt behind), apart]

/-- No item is both opener and closer. -/
theorem not_closer_of_opens (opening : standsAt opens items place = true) :
    standsAt (isCloser opens closes) items place = false := by
  rw [standsAt, Option.any_eq_true] at opening
  obtain ⟨item, found, opening⟩ := opening
  simp [standsAt, found, isCloser, opening]

theorem lone_iff (inside : place < table.length) : Lone table place ↔ table[place]? = some none := by
  obtain ⟨partner?, found⟩ : ∃ partner?, table[place]? = some partner? := ⟨_, List.getElem?_eq_getElem inside⟩
  cases partner? <;> simp [Lone, Linked, found]

namespace Matching

theorem ordered (matching : Matching opens closes items table) (linked : Linked table place other) :
    place < other ∨ other < place := by
  rcases Nat.lt_trichotomy place other with before | rfl | behind
  · exact .inl before
  · obtain ⟨opening, closing⟩ := matching.ends linked
    rw [Nat.min_self] at opening
    rw [Nat.max_self, not_closer_of_opens opening] at closing
    cases closing
  · exact .inr behind

/-- The partner of an opener comes after it. -/
theorem after_opener (matching : Matching opens closes items table) (linked : Linked table place other)
    (opening : standsAt opens items place = true) : place < other := by
  refine (matching.ordered linked).resolve_right fun behind => ?_
  have closing := (matching.ends linked).2
  rw [Nat.max_eq_left (Nat.le_of_lt behind), not_closer_of_opens opening] at closing
  cases closing

/-- The partner of a closer comes before it. -/
theorem before_closer (matching : Matching opens closes items table) (linked : Linked table place other)
    (closing : standsAt (isCloser opens closes) items place = true) : other < place := by
  refine (matching.ordered linked).resolve_left fun before => ?_
  have opening := (matching.ends linked).1
  rw [Nat.min_eq_left (Nat.le_of_lt before)] at opening
  rw [not_closer_of_opens opening] at closing
  cases closing

theorem opens_of_before (matching : Matching opens closes items table) (linked : Linked table place other)
    (before : place < other) :
    standsAt opens items place = true ∧ standsAt (isCloser opens closes) items other = true := by
  have ends := matching.ends linked
  rwa [Nat.min_eq_left (Nat.le_of_lt before), Nat.max_eq_right (Nat.le_of_lt before)] at ends

theorem linked_lt (matching : Matching opens closes items table) (linked : Linked table place other) :
    place < items.length ∧ other < items.length := by
  have bound {place other : Nat} (linked : Linked table place other) : place < items.length := by
    rw [← matching.length]
    exact (List.getElem?_eq_some_iff.mp linked).1
  exact ⟨bound linked, bound (matching.symmetric linked)⟩

theorem linked_unique {another : Nat} (linked : Linked table place other) (linkedOther : Linked table place another) :
    other = another :=
  Option.some.inj (Option.some.inj (linked.symm.trans linkedOther))

/-- Items that are no brackets have no partner. -/
theorem lone_other (matching : Matching opens closes items table) (opening : standsAt opens items place = false)
    (closing : standsAt (isCloser opens closes) items place = false) : Lone table place := by
  intro other linked
  rcases matching.ordered linked with before | behind
  · rw [(matching.opens_of_before linked before).1] at opening
    cases opening
  · rw [(matching.opens_of_before (matching.symmetric linked) behind).2] at closing
    cases closing

/-- An item without a partner at the end. A closer may be left so only if no opener waits for it. -/
theorem snoc_lone (matching : Matching opens closes done table) (length : more.length = done.length + 1)
    (same : ∀ place other, Linked more place other ↔ Linked table place other)
    (fits : isCloser opens closes item = true → ∀ opener, standsAt opens done opener = true → ¬Lone table opener) :
    Matching opens closes (done ++ [item]) more where
  length := by simpa using length
  symmetric linked := (same _ _).mpr (matching.symmetric ((same _ _).mp linked))
  ends linked := by
    obtain ⟨opening, closing⟩ := matching.ends ((same _ _).mp linked)
    exact ⟨standsAt_snoc.mpr (.inl opening), standsAt_snoc.mpr (.inl closing)⟩
  apart outer inner := matching.apart ((same _ _).mp outer) ((same _ _).mp inner)
  inside {first place last} linked after before bracket := by
    have linked := (same _ _).mp linked
    have earlier : place ≠ done.length := by
      have bound := (matching.linked_lt linked).2
      omega
    obtain ⟨other, found, within⟩ := matching.inside linked after before
      (bracket.imp (fun stands => (standsAt_snoc.mp stands).resolve_right fun last => earlier last.1)
        fun stands => (standsAt_snoc.mp stands).resolve_right fun last => earlier last.1)
    exact ⟨other, (same _ _).mpr found, within⟩
  stray {opener closer} opening loneOpener closing loneCloser order := by
    have waits : Lone table opener := fun other linked => loneOpener other ((same _ _).mpr linked)
    have alone : Lone table closer := fun other linked => loneCloser other ((same _ _).mpr linked)
    have inside : closer < (done ++ [item]).length := standsAt_lt closing
    have before : opener ≠ done.length := by rw [List.length_append, List.length_singleton] at inside; omega
    have opening := (standsAt_snoc.mp opening).resolve_right fun last => before last.1
    rcases standsAt_snoc.mp closing with closing | ⟨_, closing⟩
    · exact matching.stray opening waits closing alone order
    · exact fits closing opener opening waits

end Matching

/-- A closer comes after some items and answers the last opener that waits: what is known before, and the
partners with the new pair among them. -/
structure Answers (opens closes : α → Bool) (done : List α) (table : List (Option Nat)) (item : α) (opener : Nat)
    (more : List (Option Nat)) : Prop where
  length : more.length = done.length + 1
  closing : isCloser opens closes item = true
  opening : standsAt opens done opener = true
  waits : Lone table opener
  last : ∀ place, standsAt opens done place = true → Lone table place → place ≤ opener
  links : ∀ place other, Linked more place other ↔
    place = opener ∧ other = done.length ∨ place = done.length ∧ other = opener ∨ Linked table place other

namespace Answers

variable {first last : Nat}

theorem before (answers : Answers opens closes done table item opener more) : opener < done.length :=
  standsAt_lt answers.opening

theorem symmetric (answers : Answers opens closes done table item opener more)
    (matching : Matching opens closes done table) (linked : Linked more place other) : Linked more other place := by
  rw [answers.links] at linked ⊢
  rcases linked with ⟨rfl, rfl⟩ | ⟨rfl, rfl⟩ | old
  · exact .inr (.inl ⟨rfl, rfl⟩)
  · exact .inl ⟨rfl, rfl⟩
  · exact .inr (.inr (matching.symmetric old))

/-- What is linked to something later is the opener with its answer, or was linked before. -/
theorem forward (answers : Answers opens closes done table item opener more)
    (matching : Matching opens closes done table) (linked : Linked more place other) (ahead : place < other) :
    place = opener ∧ other = done.length ∨ Linked table place other ∧ other < done.length := by
  have inside := answers.before
  rcases (answers.links _ _).mp linked with new | ⟨rfl, rfl⟩ | old
  · exact .inl new
  · omega
  · exact .inr ⟨old, (matching.linked_lt old).2⟩

/-- The opener has waited, so it stands inside no pair. -/
theorem not_inside (answers : Answers opens closes done table item opener more)
    (matching : Matching opens closes done table) (linked : Linked table first last) (after : first < opener) :
    ¬opener < last := by
  intro before
  obtain ⟨other, found, _⟩ := matching.inside linked after before (.inl answers.opening)
  exact answers.waits other found

/-- Between the opener and its answer no opener waits, and so no closer is left alone either. -/
theorem inner (answers : Answers opens closes done table item opener more)
    (matching : Matching opens closes done table) (after : opener < place)
    (bracket : standsAt opens done place = true ∨ standsAt (isCloser opens closes) done place = true) :
    ∃ other, Linked table place other ∧ opener < other ∧ other < done.length := by
  have paired : ¬Lone table place := by
    intro alone
    rcases bracket with opening | closing
    · exact absurd after (Nat.not_lt.mpr (answers.last place opening alone))
    · exact matching.stray answers.opening answers.waits closing alone after
  obtain ⟨other, found⟩ : ∃ other, Linked table place other := by simpa [Lone] using paired
  refine ⟨other, found, ?_, (matching.linked_lt found).2⟩
  rcases Nat.lt_trichotomy other opener with less | rfl | greater
  · exact absurd after (answers.not_inside matching (matching.symmetric found) less)
  · exact absurd (matching.symmetric found) (answers.waits place)
  · exact greater

/-- With the new pair the items are matched as before. -/
theorem matching (answers : Answers opens closes done table item opener more)
    (matching : Matching opens closes done table) : Matching opens closes (done ++ [item]) more where
  length := by simpa using answers.length
  symmetric := answers.symmetric matching
  ends {place other} linked := by
    have opening : standsAt opens (done ++ [item]) opener = true := standsAt_snoc.mpr (.inl answers.opening)
    have closing : standsAt (isCloser opens closes) (done ++ [item]) done.length = true :=
      standsAt_snoc.mpr (.inr ⟨rfl, answers.closing⟩)
    have order := Nat.le_of_lt answers.before
    rcases (answers.links _ _).mp linked with ⟨rfl, rfl⟩ | ⟨rfl, rfl⟩ | old
    · rw [Nat.min_eq_left order, Nat.max_eq_right order]
      exact ⟨opening, closing⟩
    · rw [Nat.min_eq_right order, Nat.max_eq_left order]
      exact ⟨opening, closing⟩
    · obtain ⟨opening, closing⟩ := matching.ends old
      exact ⟨standsAt_snoc.mpr (.inl opening), standsAt_snoc.mpr (.inl closing)⟩
  apart {first second third fourth} outer inner after before crossing := by
    rcases answers.forward matching inner (by omega) with ⟨rfl, rfl⟩ | ⟨inner, bound⟩
    · rcases answers.forward matching outer (by omega) with ⟨rfl, _⟩ | ⟨outer, _⟩
      · omega
      · exact answers.not_inside matching outer after before
    · rcases answers.forward matching outer (by omega) with ⟨_, rfl⟩ | ⟨outer, _⟩
      · omega
      · exact matching.apart outer inner after before crossing
  inside {first place last} linked after before bracket := by
    have old {other : Nat} (found : Linked table place other) : Linked more place other :=
      (answers.links _ _).mpr (.inr (.inr found))
    have earlier {kind : α → Bool} (stands : standsAt kind (done ++ [item]) place = true)
        (bound : last ≤ done.length) : standsAt kind done place = true :=
      (standsAt_snoc.mp stands).resolve_right fun last => by omega
    rcases answers.forward matching linked (by omega) with ⟨rfl, rfl⟩ | ⟨linked, bound⟩
    · obtain ⟨other, found, within⟩ := answers.inner matching after
        (bracket.imp (earlier · (Nat.le_refl _)) (earlier · (Nat.le_refl _)))
      exact ⟨other, old found, within⟩
    · obtain ⟨other, found, within⟩ := matching.inside linked after before
        (bracket.imp (earlier · (Nat.le_of_lt bound)) (earlier · (Nat.le_of_lt bound)))
      exact ⟨other, old found, within⟩
  stray {place closer} opening loneOpener closing loneCloser order := by
    have alone {place : Nat} (lone : Lone more place) : Lone table place :=
      fun other linked => lone other ((answers.links _ _).mpr (.inr (.inr linked)))
    have closing : standsAt (isCloser opens closes) done closer = true := by
      refine (standsAt_snoc.mp closing).resolve_right fun last => ?_
      exact loneCloser opener ((answers.links _ _).mpr (.inr (.inl ⟨last.1, rfl⟩)))
    have opening : standsAt opens done place = true := by
      refine (standsAt_snoc.mp opening).resolve_right fun last => ?_
      have bound := standsAt_lt closing
      omega
    exact matching.stray opening (alone loneOpener) closing (alone loneCloser) order

end Answers

namespace Matching

/-- Every pair of one matching is one of the other. The induction is on the distance of its ends: what lies
inside is paired alike, so whatever else an end could be paired with, it crosses the pair or stands around
a bracket that is left alone. -/
theorem linked_of_linked (matching : Matching opens closes items table)
    (matchingOther : Matching opens closes items others) {first last : Nat} (linked : Linked table first last)
    (before : first < last) : Linked others first last := by
  obtain ⟨opening, closing⟩ := matching.opens_of_before linked before
  have inner {place other : Nat} (after : first < place) (within : place < last) (found : Linked others place other) :
      first < other ∧ other < last := by
    have bracket : standsAt opens items place = true ∨ standsAt (isCloser opens closes) items place = true :=
      (matchingOther.ordered found).imp (fun ahead => (matchingOther.opens_of_before found ahead).1) fun behind =>
        (matchingOther.opens_of_before (matchingOther.symmetric found) behind).2
    obtain ⟨same, foundSame, low, high⟩ := matching.inside linked after within bracket
    have paired : Linked others place same := by
      rcases matching.ordered foundSame with ahead | behind
      · exact linked_of_linked matching matchingOther foundSame ahead
      · exact matchingOther.symmetric
          (linked_of_linked matching matchingOther (matching.symmetric foundSame) behind)
    obtain rfl := linked_unique found paired
    exact ⟨low, high⟩
  refine Classical.byContradiction fun different => ?_
  -- The partners that the ends have instead lie outside the pair.
  have farther {other : Nat} (found : Linked others first other) : last < other := by
    have ahead := matchingOther.after_opener found opening
    rcases Nat.lt_trichotomy other last with less | rfl | greater
    · exact absurd (inner ahead less (matchingOther.symmetric found)).1 (Nat.lt_irrefl _)
    · exact absurd found different
    · exact greater
  have nearer {other : Nat} (found : Linked others last other) : other < first := by
    have behind := matchingOther.before_closer found closing
    rcases Nat.lt_trichotomy other first with less | rfl | greater
    · exact less
    · exact absurd (matchingOther.symmetric found) different
    · exact absurd (inner greater behind (matchingOther.symmetric found)).2 (Nat.lt_irrefl _)
  by_cases openerPaired : ∃ other, Linked others first other
  · obtain ⟨other, found⟩ := openerPaired
    have beyond := farther found
    obtain ⟨answer, foundAnswer, low, _⟩ := matchingOther.inside found before beyond (.inr closing)
    have less := nearer foundAnswer
    omega
  · by_cases closerPaired : ∃ other, Linked others last other
    · obtain ⟨other, found⟩ := closerPaired
      obtain ⟨answer, foundAnswer, _⟩ :=
        matchingOther.inside (matchingOther.symmetric found) (nearer found) before (.inl opening)
      exact openerPaired ⟨answer, foundAnswer⟩
    · exact matchingOther.stray opening (fun other found => openerPaired ⟨other, found⟩) closing
        (fun other found => closerPaired ⟨other, found⟩) before
termination_by last - first

/-- Items are matched in one way. -/
theorem unique (matching : Matching opens closes items table) (matchingOther : Matching opens closes items others) :
    table = others := by
  have transfer {table others : List (Option Nat)} (matching : Matching opens closes items table)
      (matchingOther : Matching opens closes items others) {place other : Nat} (linked : Linked table place other) :
      Linked others place other := by
    rcases matching.ordered linked with ahead | behind
    · exact linked_of_linked matching matchingOther linked ahead
    · exact matchingOther.symmetric (linked_of_linked matching matchingOther (matching.symmetric linked) behind)
  have lengths : table.length = others.length := matching.length.trans matchingOther.length.symm
  apply List.ext_getElem? fun place => ?_
  by_cases inside : place < table.length
  · by_cases paired : ∃ other, Linked table place other
    · obtain ⟨other, linked⟩ := paired
      exact linked.trans (transfer matching matchingOther linked).symm
    · have lone : Lone table place := fun other linked => paired ⟨other, linked⟩
      have loneOther : Lone others place := fun other linked => lone other (transfer matchingOther matching linked)
      rw [(lone_iff inside).mp lone, (lone_iff (lengths ▸ inside)).mp loneOther]
  · rw [List.getElem?_eq_none (by omega), List.getElem?_eq_none (by omega)]

end Matching

/-- What the walk over the items knows: those passed are matched, and the places it holds are those of the
openers that wait, the last one first. -/
structure Progress (opens closes : α → Bool) (done : List α) (waiting : List Nat) (table : Array (Option Nat)) :
    Prop where
  matching : Matching opens closes done table.toList
  waits : ∀ place, place ∈ waiting ↔ standsAt opens done place = true ∧ Lone table.toList place
  ordered : waiting.Pairwise (· > ·)

theorem linked_push (table : Array (Option Nat)) (place other : Nat) :
    Linked (table.push none).toList place other ↔ Linked table.toList place other := by
  rw [Linked, Linked, Array.getElem?_toList, Array.getElem?_toList, Array.getElem?_push]
  split
  · rename_i last
    simp [last]
  · rfl

theorem linked_answer {table : Array (Option Nat)} (before : opener < table.size)
    (waits : Lone table.toList opener) (place other : Nat) :
    Linked (((table.push none).setIfInBounds table.size (some opener)).setIfInBounds opener
        (some table.size)).toList place other ↔
      place = opener ∧ other = table.size ∨ place = table.size ∧ other = opener ∨
        Linked table.toList place other := by
  have absent : ¬Linked table.toList table.size other := fun linked => by
    have bound := (List.getElem?_eq_some_iff.mp linked).1
    rw [Array.length_toList] at bound
    omega
  rw [Linked, Array.getElem?_toList, Array.getElem?_setIfInBounds, Array.getElem?_setIfInBounds]
  by_cases first : opener = place
  · subst first
    have apart : opener ≠ table.size := by omega
    have inside : opener < table.size + 1 := by omega
    simp only [Array.size_setIfInBounds, Array.size_push, inside, if_true, Option.some.injEq, waits other, apart,
      false_and, true_and, or_false, eq_comm]
  · by_cases last : table.size = place
    · subst last
      have apart : table.size ≠ opener := by omega
      simp [first, absent, apart, eq_comm]
    · simp only [first, last, if_false]
      rw [← Array.getElem?_toList, ← Linked, linked_push]
      simp [Ne.symm first, Ne.symm last]

namespace Progress

variable {waiting : List Nat} {array : Array (Option Nat)}

theorem size_eq (progress : Progress opens closes done waiting array) : array.size = done.length := by
  simpa using progress.matching.length

private theorem lone_push (array : Array (Option Nat)) (place : Nat) :
    Lone (array.push none).toList place ↔ Lone array.toList place := by
  simp only [Lone, linked_push]

/-- The walk goes on: an opener waits for its answer. -/
theorem wait (progress : Progress opens closes done waiting array) (opening : opens item = true) :
    Progress opens closes (done ++ [item]) (done.length :: waiting) (array.push none) where
  matching := by
    refine progress.matching.snoc_lone (by simp [progress.size_eq]) (linked_push array) fun closing => ?_
    simp [isCloser, opening] at closing
  waits place := by
    rw [List.mem_cons, progress.waits, standsAt_snoc, lone_push]
    constructor
    · rintro (rfl | ⟨stands, lone⟩)
      · exact ⟨.inr ⟨rfl, opening⟩, fun other linked => Nat.lt_irrefl _ (progress.matching.linked_lt linked).1⟩
      · exact ⟨.inl stands, lone⟩
    · rintro ⟨stands | ⟨rfl, _⟩, lone⟩
      · exact .inr ⟨stands, lone⟩
      · exact .inl rfl
  ordered := List.pairwise_cons.mpr
    ⟨fun place member => standsAt_lt ((progress.waits place).mp member).1, progress.ordered⟩

/-- The walk goes on: nothing is paired by an item that is no bracket, nor by a closer while no opener waits. -/
theorem pass (progress : Progress opens closes done waiting array) (plain : opens item = false)
    (fits : isCloser opens closes item = true → waiting = []) :
    Progress opens closes (done ++ [item]) waiting (array.push none) where
  matching := by
    refine progress.matching.snoc_lone (by simp [progress.size_eq]) (linked_push array) ?_
    intro closing place stands lone
    have member := (progress.waits place).mpr ⟨stands, lone⟩
    rw [fits closing] at member
    cases member
  waits place := by
    rw [progress.waits, standsAt_snoc, lone_push]
    simp [plain]
  ordered := progress.ordered

/-- The walk goes on: a closer answers the opener that waited last. -/
theorem answer {first : Nat} (progress : Progress opens closes done (first :: waiting) array)
    (closing : isCloser opens closes item = true) :
    Progress opens closes (done ++ [item]) waiting
      (((array.push none).setIfInBounds array.size (some first)).setIfInBounds first (some array.size)) := by
  obtain ⟨opening, lone⟩ := (progress.waits first).mp (by simp)
  obtain ⟨below, ordered⟩ := List.pairwise_cons.mp progress.ordered
  have size := progress.size_eq
  have before : first < array.size := by rw [size]; exact standsAt_lt opening
  have links := linked_answer before lone
  have plain : opens item = false := by simpa using ((Bool.and_eq_true _ _).mp closing).1
  refine ⟨Answers.matching ⟨by simp [size], closing, opening, lone, ?_, ?_⟩ progress.matching, fun place => ?_, ordered⟩
  · intro place stands alone
    rcases List.mem_cons.mp ((progress.waits place).mpr ⟨stands, alone⟩) with rfl | later
    · exact Nat.le_refl _
    · exact Nat.le_of_lt (below place later)
  · intro place other
    rw [links, size]
  · rw [standsAt_snoc]
    simp only [plain, Bool.false_eq_true, and_false, or_false]
    constructor
    · intro member
      obtain ⟨stands, alone⟩ := (progress.waits place).mp (List.mem_cons_of_mem first member)
      have apart := below place member
      have inside := standsAt_lt stands
      refine ⟨stands, fun other linked => ?_⟩
      rcases (links _ _).mp linked with ⟨rfl, _⟩ | ⟨rfl, _⟩ | old
      · exact Nat.lt_irrefl _ apart
      · omega
      · exact alone other old
    · rintro ⟨stands, alone⟩
      have waits : Lone array.toList place := fun other linked => alone other ((links _ _).mpr (.inr (.inr linked)))
      refine (List.mem_cons.mp ((progress.waits place).mpr ⟨stands, waits⟩)).resolve_left ?_
      rintro rfl
      exact alone array.size ((links _ _).mpr (.inl ⟨rfl, rfl⟩))

theorem start (opens closes : α → Bool) : Progress opens closes [] [] #[] where
  matching :=
    { length := rfl
      symmetric := by simp [Linked]
      ends := by simp [Linked]
      apart := by simp [Linked]
      inside := by simp [Linked]
      stray := by simp [standsAt] }
  waits := by simp [standsAt]
  ordered := .nil

/-- At the end of the walk all items are matched. -/
theorem pair_matching (progress : Progress opens closes done waiting array) (items : List α) :
    Matching opens closes (done ++ items) (pair opens closes items waiting array).toList := by
  induction items generalizing done waiting array with
  | nil => simpa [pair] using progress.matching
  | cons item items ih =>
    have assoc : done ++ item :: items = done ++ [item] ++ items := by simp
    simp only [assoc, pair, progress.size_eq]
    split
    · exact ih (progress.wait ‹_›)
    · rename_i plain
      rw [Bool.not_eq_true] at plain
      split
      · rename_i closing
        have closer : isCloser opens closes item = true := by simp [isCloser, plain, closing]
        cases waiting with
        | nil => exact ih (progress.pass plain fun _ => rfl)
        | cons first waiting =>
          have next := progress.answer closer
          rw [progress.size_eq] at next
          exact ih next
      · rename_i other
        exact ih (progress.pass plain fun closing => by simp [isCloser, other] at closing)

end Progress

/-- The walk over the items gives every place its partner, and its partners are the only ones that match the
items. What is no bracket has none. -/
theorem partners_matching (opens closes : α → Bool) (items : List α) :
    (∀ others, Matching opens closes items others ↔ others = partners opens closes items) ∧
      ∀ (place : Nat) (item : α), items[place]? = some item → opens item = false → closes item = false →
        (partners opens closes items)[place]? = some none := by
  have matching : Matching opens closes items (partners opens closes items) :=
    (Progress.start opens closes).pair_matching items
  refine ⟨fun others => ⟨fun matched => matched.unique matching, fun same => same ▸ matching⟩, ?_⟩
  intro place item found opening closing
  have inside : place < (partners opens closes items).length := by
    rw [matching.length]
    exact (List.getElem?_eq_some_iff.mp found).1
  refine (lone_iff inside).mp (matching.lone_other ?_ ?_) <;> simp [standsAt, found, isCloser, opening, closing]

end TapeScript.Brackets
