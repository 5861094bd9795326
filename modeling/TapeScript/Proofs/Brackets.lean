import TapeScript.Brackets

/-! What pairing brackets comes to. Items whose brackets nest are paired among themselves, whatever
stands around them. Any items at all are nested items with stray brackets in between: closers that
nothing waits for, and after them openers that nothing answers. -/
namespace TapeScript.Brackets

variable {α β : Type} {opens closes : α → Bool}

/-- Items whose brackets nest. -/
inductive Balanced (opens closes : α → Bool) : List α → Prop where
  | nil : Balanced opens closes []
  | other {item : α} {rest : List α} (opening : opens item = false) (closing : closes item = false)
      (balanced : Balanced opens closes rest) : Balanced opens closes (item :: rest)
  | pair {opener closer : α} {inner rest : List α} (opening : opens opener = true)
      (inside : Balanced opens closes inner) (plain : opens closer = false)
      (closing : closes closer = true) (balanced : Balanced opens closes rest) :
      Balanced opens closes (opener :: inner ++ closer :: rest)

theorem Balanced.append {items others : List α} (balanced : Balanced opens closes items)
    (after : Balanced opens closes others) : Balanced opens closes (items ++ others) := by
  induction balanced with
  | nil => exact after
  | other opening closing _ ih => exact .other opening closing ih
  | pair opening inside plain closing _ _ ih =>
    rw [List.append_assoc, List.cons_append]
    exact .pair opening inside plain closing ih

theorem Balanced.map {opens closes : β → Bool} (view : α → β) {items : List α}
    (balanced : Balanced (opens ∘ view) (closes ∘ view) items) : Balanced opens closes (items.map view) := by
  induction balanced with
  | nil => exact .nil
  | other opening closing _ ih => exact .other opening closing ih
  | pair opening _ plain closing _ ihInner ih =>
    rw [List.map_append]
    exact .pair opening ihInner plain closing ih

/-- Items and what is left of them without their stray brackets. Once an opener waits for an answer
that does not come, no closer can be stray. -/
inductive Sifted (opens closes : α → Bool) : Bool → List α → List α → Prop where
  | nil {waits : Bool} : Sifted opens closes waits [] []
  | other {waits : Bool} {item : α} {items kept : List α} (opening : opens item = false)
      (closing : closes item = false) (rest : Sifted opens closes waits items kept) :
      Sifted opens closes waits (item :: items) (item :: kept)
  | pair {waits : Bool} {opener closer : α} {inner items kept : List α}
      (opening : opens opener = true) (inside : Balanced opens closes inner)
      (plain : opens closer = false) (closing : closes closer = true)
      (rest : Sifted opens closes waits items kept) :
      Sifted opens closes waits (opener :: inner ++ closer :: items) (opener :: inner ++ closer :: kept)
  | closer {item : α} {items kept : List α} (plain : opens item = false) (closing : closes item = true)
      (rest : Sifted opens closes false items kept) : Sifted opens closes false (item :: items) kept
  | opener {waits : Bool} {item : α} {items kept : List α} (opening : opens item = true)
      (rest : Sifted opens closes true items kept) : Sifted opens closes waits (item :: items) kept

namespace Sifted

theorem balanced {waits : Bool} {items kept : List α} (sifted : Sifted opens closes waits items kept) :
    Balanced opens closes kept := by
  induction sifted with
  | nil => exact .nil
  | other opening closing _ ih => exact .other opening closing ih
  | pair opening inside plain closing _ ih => exact .pair opening inside plain closing ih
  | closer _ _ _ ih => exact ih
  | opener _ _ ih => exact ih

theorem after_balanced {waits : Bool} {front items kept : List α} (balanced : Balanced opens closes front)
    (sifted : Sifted opens closes waits items kept) :
    Sifted opens closes waits (front ++ items) (front ++ kept) := by
  induction balanced with
  | nil => exact sifted
  | other opening closing _ ih => exact .other opening closing ih
  | pair opening inside plain closing _ _ ih =>
    simp only [List.append_assoc, List.cons_append]
    exact .pair opening inside plain closing ih

theorem map {opens closes : β → Bool} (view : α → β) {waits : Bool} {items kept : List α}
    (sifted : Sifted (opens ∘ view) (closes ∘ view) waits items kept) :
    Sifted opens closes waits (items.map view) (kept.map view) := by
  induction sifted with
  | nil => exact .nil
  | other opening closing _ ih => exact .other opening closing ih
  | pair opening inside plain closing _ ih =>
    rw [List.map_append, List.map_append]
    exact .pair opening (inside.map view) plain closing ih
  | closer plain closing _ ih => exact .closer plain closing ih
  | opener opening _ ih => exact .opener opening ih

/-- Without an opener to wait for, closers may be stray as well. -/
theorem relax {waits : Bool} {items kept : List α} (sifted : Sifted opens closes waits items kept) :
    Sifted opens closes false items kept := by
  induction sifted with
  | nil => exact .nil
  | other opening closing _ ih => exact .other opening closing ih
  | pair opening inside plain closing _ ih => exact .pair opening inside plain closing ih
  | closer plain closing rest _ => exact .closer plain closing rest
  | opener opening rest _ => exact .opener opening rest

end Sifted

/-- Either all closers are answered, or the items begin with nested ones before a stray closer. -/
private theorem answered_or_closer (opens closes : α → Bool) (items : List α) :
    (∃ kept, Sifted opens closes true items kept) ∨
      ∃ front closer rest, items = front ++ closer :: rest ∧ Balanced opens closes front ∧
        opens closer = false ∧ closes closer = true := by
  match items with
  | [] => exact .inl ⟨[], .nil⟩
  | item :: items =>
    cases opening : opens item with
    | false =>
      cases closing : closes item with
      | true => exact .inr ⟨[], item, items, rfl, .nil, opening, closing⟩
      | false =>
        rcases answered_or_closer opens closes items with ⟨kept, sifted⟩ | ⟨front, closer, rest, rfl, balanced, found⟩
        · exact .inl ⟨item :: kept, .other opening closing sifted⟩
        · exact .inr ⟨item :: front, closer, rest, rfl, .other opening closing balanced, found⟩
    | true =>
      rcases answered_or_closer opens closes items with
        ⟨kept, sifted⟩ | ⟨inner, closer, rest, split, inside, plain, closing⟩
      · exact .inl ⟨kept, .opener opening sifted⟩
      · have shorter : rest.length < items.length := by simp [split]; omega
        subst split
        rcases answered_or_closer opens closes rest with ⟨kept, sifted⟩ | ⟨front, last, others, split, balanced, found⟩
        · exact .inl ⟨_, .pair opening inside plain closing sifted⟩
        · subst split
          refine .inr ⟨item :: inner ++ closer :: front, last, others, by simp, ?_, found⟩
          exact .pair opening inside plain closing balanced
termination_by items.length

/-- Any items can be sifted. -/
theorem exists_sifted (opens closes : α → Bool) (items : List α) :
    ∃ kept, Sifted opens closes false items kept := by
  rcases answered_or_closer opens closes items with
    ⟨kept, sifted⟩ | ⟨front, closer, rest, split, balanced, plain, closing⟩
  · exact ⟨kept, sifted.relax⟩
  · have shorter : rest.length < items.length := by simp [split]; omega
    obtain ⟨kept, sifted⟩ := exists_sifted opens closes rest
    subst split
    exact ⟨front ++ kept, .after_balanced balanced (.closer plain closing sifted)⟩
termination_by items.length

/-- A position that does not wait for an answer keeps its partner. -/
theorem pair_settled (items : List α) {waiting : List Nat} {partners : Array (Option Nat)} {position : Nat}
    (inside : position < partners.size) (settled : position ∉ waiting) :
    (pair opens closes items waiting partners)[position]? = partners[position]? := by
  induction items generalizing waiting partners with
  | nil => rfl
  | cons item items ih =>
    have pushed : (partners.push none)[position]? = partners[position]? := by
      rw [Array.getElem?_push]
      exact if_neg (by omega)
    have larger : position < (partners.push none).size := by rw [Array.size_push]; omega
    simp only [pair]
    split
    · rw [ih larger (by simp only [List.mem_cons, not_or]; exact ⟨by omega, settled⟩), pushed]
    · split
      · cases waiting with
        | nil => rw [ih larger (by simp), pushed]
        | cons opener waiting =>
          simp only [List.mem_cons, not_or] at settled
          rw [ih (by simpa using larger) settled.2, Array.getElem?_setIfInBounds_ne (Ne.symm settled.1),
            Array.getElem?_setIfInBounds_ne (by omega), pushed]
      · rw [ih larger settled, pushed]

/-- The partners written down when a closer answers an opener with settled items in between. -/
private theorem partners_close (partners : Array (Option Nat)) (found : List (Option Nat)) :
    (((partners.push none ++ found.toArray).push none).setIfInBounds
        (partners.push none ++ found.toArray).size (some partners.size)).setIfInBounds
        partners.size (some (partners.size + found.length + 1)) =
      partners ++ (some (partners.size + found.length + 1) :: found ++ [some partners.size]).toArray := by
  apply Array.ext'
  have last : partners.size + 1 + found.length = (partners.toList ++ none :: found).length := by
    simp; omega
  have first : partners.size = partners.toList.length := by simp
  simp only [Array.toList_setIfInBounds, Array.toList_push, Array.toList_append, Array.size_append,
    Array.size_push, List.size_toArray, List.append_assoc, List.cons_append, List.nil_append]
  rw [← List.cons_append, ← List.append_assoc, last, List.set_append_right _ _ (Nat.le_refl _),
    Nat.sub_self, first, List.append_assoc, List.set_append_right _ _ (Nat.le_refl _), Nat.sub_self]
  simp

/-- The items without the brackets that have no partner. -/
def answered (opens closes : α → Bool) (items : List α) (partners : List (Option Nat)) : List α :=
  ((items.zip partners).filter fun (item, partner?) =>
    !(opens item || closes item) || partner?.isSome).map (·.1)

theorem answered_append {items others : List α} {partners more : List (Option Nat)}
    (length : partners.length = items.length) :
    answered opens closes (items ++ others) (partners ++ more) =
      answered opens closes items partners ++ answered opens closes others more := by
  simp [answered, List.zip_append length.symm]

theorem answered_other {item : α} {items : List α} {partners : List (Option Nat)} (partner? : Option Nat)
    (opening : opens item = false) (closing : closes item = false) :
    answered opens closes (item :: items) (partner? :: partners) =
      item :: answered opens closes items partners := by
  simp [answered, opening, closing]

theorem answered_some {item : α} {items : List α} {partners : List (Option Nat)} (partner : Nat) :
    answered opens closes (item :: items) (some partner :: partners) =
      item :: answered opens closes items partners := by
  simp [answered]

theorem answered_stray {item : α} {items : List α} {partners : List (Option Nat)}
    (bracket : (opens item || closes item) = true) :
    answered opens closes (item :: items) (none :: partners) = answered opens closes items partners := by
  have dropped : (!(opens item || closes item) || (none : Option Nat).isSome) = false := by simp [bracket]
  simp only [answered, List.zip_cons_cons, List.filter_cons, dropped, Bool.false_eq_true, ↓reduceIte]

/-- An opener and the closer that answers it, once the items in between are settled. -/
private theorem pair_around {opener closer : α} {inner : List α} {found : List (Option Nat)}
    (rest : List α) {waiting : List Nat} {partners : Array (Option Nat)}
    (opening : opens opener = true) (plain : opens closer = false) (closing : closes closer = true)
    (length : found.length = inner.length)
    (paired : pair opens closes (inner ++ closer :: rest) (partners.size :: waiting) (partners.push none) =
      pair opens closes (closer :: rest) (partners.size :: waiting) (partners.push none ++ found.toArray)) :
    pair opens closes (opener :: inner ++ closer :: rest) waiting partners =
      pair opens closes rest waiting
        (partners ++ (some (partners.size + inner.length + 1) :: found ++ [some partners.size]).toArray) := by
  have here : (partners.push none ++ found.toArray).size = partners.size + inner.length + 1 := by
    simp [length]
    omega
  have close := partners_close partners found
  simp only [List.cons_append, pair, opening, ↓reduceIte] at paired ⊢
  rw [paired]
  simp only [plain, closing, Bool.false_eq_true, ↓reduceIte]
  rw [here, length] at close
  rw [here, close]
  simp

/-- Nested items are paired among themselves, and none of them is left without a partner. -/
theorem pair_balanced {items : List α} (balanced : Balanced opens closes items) (rest : List α)
    (waiting : List Nat) (partners : Array (Option Nat)) :
    ∃ found : List (Option Nat), found.length = items.length ∧
      answered opens closes items found = items ∧
      pair opens closes (items ++ rest) waiting partners =
        pair opens closes rest waiting (partners ++ found.toArray) := by
  induction balanced generalizing rest waiting partners with
  | nil => exact ⟨[], rfl, rfl, by simp⟩
  | @other item items opening closing _ ih =>
    obtain ⟨found, length, kept, paired⟩ := ih rest waiting (partners.push none)
    refine ⟨none :: found, by simp [length], by rw [answered_other none opening closing, kept], ?_⟩
    simp only [List.cons_append, pair, opening, closing, Bool.false_eq_true, ↓reduceIte, paired]
    congr 1
    apply Array.ext'
    simp
  | @pair opener closer inner items opening _ plain closing _ ihInner ih =>
    obtain ⟨found, length, kept, paired⟩ :=
      ihInner (closer :: items ++ rest) (partners.size :: waiting) (partners.push none)
    obtain ⟨others, lengths, keptOthers, pairedOthers⟩ := ih rest waiting
      (partners ++ (some (partners.size + inner.length + 1) :: found ++ [some partners.size]).toArray)
    refine ⟨(some (partners.size + inner.length + 1) :: found) ++ (some partners.size :: others), ?_, ?_, ?_⟩
    · simp [length, lengths]
    · rw [answered_append (by simp [length]), answered_some, answered_some, kept, keptOthers]
    · have around := pair_around (items ++ rest) opening plain closing length paired
      have assoc : opener :: inner ++ closer :: items ++ rest = opener :: inner ++ closer :: (items ++ rest) := by
        simp
      rw [assoc, around, pairedOthers]
      congr 1
      apply Array.ext'
      simp

/-- An opener and its closer with nested items in between become partners. -/
theorem pair_nested {opener closer : α} {inner : List α} (opening : opens opener = true)
    (inside : Balanced opens closes inner) (plain : opens closer = false) (closing : closes closer = true)
    (rest : List α) (waiting : List Nat) (partners : Array (Option Nat)) :
    ∃ found : List (Option Nat), found.length = inner.length ∧
      answered opens closes inner found = inner ∧
      pair opens closes (opener :: inner ++ closer :: rest) waiting partners =
        pair opens closes rest waiting
          (partners ++ (some (partners.size + inner.length + 1) :: found ++ [some partners.size]).toArray) := by
  obtain ⟨found, length, kept, paired⟩ :=
    pair_balanced inside (closer :: rest) (partners.size :: waiting) (partners.push none)
  exact ⟨found, length, kept, pair_around rest opening plain closing length paired⟩

/-- Sifted items get their partners without regard to what came before them; only the stray brackets
among them get none. -/
theorem pair_sifted {waits : Bool} {items kept : List α} (sifted : Sifted opens closes waits items kept)
    (waiting : List Nat) (free : waits = false → waiting = []) (partners : Array (Option Nat)) :
    ∃ found : List (Option Nat), found.length = items.length ∧
      answered opens closes items found = kept ∧
      pair opens closes items waiting partners = partners ++ found.toArray := by
  have pushed (found : List (Option Nat)) (partners : Array (Option Nat)) :
      partners.push none ++ found.toArray = partners ++ (none :: found).toArray := by
    apply Array.ext'
    simp
  induction sifted generalizing waiting partners with
  | nil => exact ⟨[], rfl, rfl, by simp [pair]⟩
  | other opening closing _ ih =>
    obtain ⟨found, length, kept, paired⟩ := ih waiting free (partners.push none)
    refine ⟨none :: found, by simp [length], by rw [answered_other none opening closing, kept], ?_⟩
    simp only [pair, opening, closing, Bool.false_eq_true, ↓reduceIte, paired, pushed]
  | @pair waits opener closer inner items kept opening inside plain closing _ ih =>
    obtain ⟨found, length, keptInner, paired⟩ := pair_nested opening inside plain closing items waiting partners
    obtain ⟨others, lengths, keptOthers, pairedOthers⟩ := ih waiting free
      (partners ++ (some (partners.size + inner.length + 1) :: found ++ [some partners.size]).toArray)
    refine ⟨(some (partners.size + inner.length + 1) :: found) ++ (some partners.size :: others), ?_, ?_, ?_⟩
    · simp [length, lengths]
    · rw [answered_append (by simp [length]), answered_some, answered_some, keptInner, keptOthers]
    · rw [paired, pairedOthers]
      apply Array.ext'
      simp
  | closer plain closing _ ih =>
    obtain ⟨found, length, kept, paired⟩ := ih [] (fun _ => rfl) (partners.push none)
    refine ⟨none :: found, by simp [length], by rw [answered_stray (by simp [closing]), kept], ?_⟩
    simp only [pair, plain, closing, Bool.false_eq_true, ↓reduceIte, free rfl, paired, pushed]
  | opener opening _ ih =>
    obtain ⟨found, length, kept, paired⟩ := ih (partners.size :: waiting) (by simp) (partners.push none)
    refine ⟨none :: found, by simp [length], by rw [answered_stray (by simp [opening]), kept], ?_⟩
    simp only [pair, opening, ↓reduceIte, paired, pushed]

/-- Leaving out the brackets without a partner leaves out the stray ones. -/
theorem answered_partners {items kept : List α} (sifted : Sifted opens closes false items kept) :
    answered opens closes items (partners opens closes items) = kept := by
  obtain ⟨found, _, kept, paired⟩ := pair_sifted sifted [] (fun _ => rfl) #[]
  rw [partners, paired]
  simpa using kept

/-- What was paired before the last items does not depend on them. -/
private theorem pair_append (opens closes : α → Bool) (items : List α) (waiting : List Nat)
    (partners : Array (Option Nat)) (inside : ∀ position ∈ waiting, position < partners.size) :
    ∃ (waiting' : List Nat) (partners' : Array (Option Nat)), partners'.size = partners.size + items.length ∧
      (∀ position ∈ waiting', position < partners'.size) ∧
      ∀ rest, pair opens closes (items ++ rest) waiting partners = pair opens closes rest waiting' partners' := by
  induction items generalizing waiting partners with
  | nil => exact ⟨waiting, partners, rfl, inside, fun _ => rfl⟩
  | cons item items ih =>
    have larger : ∀ position ∈ waiting, position < (partners.push none).size := by
      intro position member
      have bound := inside position member
      rw [Array.size_push]
      omega
    have size (array : Array (Option Nat)) (same : array.size = partners.size + 1) :
        array.size + items.length = partners.size + (item :: items).length := by
      rw [same, List.length_cons]
      omega
    simp only [List.cons_append, pair]
    split
    · obtain ⟨waiting', partners', sized, bounded, paired⟩ :=
        ih (partners.size :: waiting) (partners.push none) (by simpa using larger)
      exact ⟨waiting', partners', by rw [sized, size _ (by simp)], bounded, paired⟩
    · split
      · cases waiting with
        | nil =>
          obtain ⟨waiting', partners', sized, bounded, paired⟩ :=
            ih [] (partners.push none) (by simp)
          exact ⟨waiting', partners', by rw [sized, size _ (by simp)], bounded, paired⟩
        | cons opener waiting =>
          obtain ⟨waiting', partners', sized, bounded, paired⟩ :=
            ih waiting (((partners.push none).setIfInBounds partners.size (some opener)).setIfInBounds
              opener (some partners.size)) (by
                intro position member
                simpa using larger position (List.mem_cons_of_mem _ member))
          exact ⟨waiting', partners', by rw [sized, size _ (by simp)], bounded, paired⟩
      · obtain ⟨waiting', partners', sized, bounded, paired⟩ :=
          ih waiting (partners.push none) larger
        exact ⟨waiting', partners', by rw [sized, size _ (by simp)], bounded, paired⟩

/-- Brackets with nested items in between are partners wherever they stand. -/
theorem partners_nested {opener closer : α} {inner : List α} (opening : opens opener = true)
    (inside : Balanced opens closes inner) (plain : opens closer = false) (closing : closes closer = true)
    (front rest : List α) :
    (partners opens closes (front ++ (opener :: inner ++ closer :: rest)))[front.length]? =
        some (some (front.length + inner.length + 1)) ∧
      (partners opens closes (front ++ (opener :: inner ++ closer :: rest)))[front.length + inner.length + 1]? =
        some (some front.length) := by
  obtain ⟨waiting, before, size, bounded, paired⟩ :=
    pair_append opens closes front [] #[] (by simp)
  obtain ⟨found, length, _, nested⟩ := pair_nested opening inside plain closing rest waiting before
  have sized : before.size = front.length := by simpa using size
  have absent (position : Nat) (after : before.size ≤ position) : position ∉ waiting := by
    intro member
    have bound := bounded position member
    omega
  simp only [partners, Array.getElem?_toList]
  rw [paired, nested]
  constructor
  · rw [pair_settled rest (by simp; omega) (absent _ (by omega))]
    simp [sized]
  · rw [pair_settled rest (by simp; omega) (absent _ (by omega)),
      Array.getElem?_append_right (by omega)]
    have offset : front.length + inner.length + 1 - before.size =
        (some (before.size + inner.length + 1) :: found).length := by
      simp
      omega
    rw [offset, List.getElem?_toArray, List.getElem?_append_right (Nat.le_refl _)]
    simp [sized]

/-- A closer ends what one opener began. -/
theorem inner_unique {opener closer : α} {inner other rest more : List α} (inside : Balanced opens closes inner)
    (insideOther : Balanced opens closes other)
    (same : opener :: inner ++ closer :: rest = opener :: other ++ closer :: more) (opening : opens opener = true)
    (plain : opens closer = false) (closing : closes closer = true) : inner = other ∧ rest = more := by
  have first := (partners_nested opening inside plain closing [] rest).1
  have second := (partners_nested opening insideOther plain closing [] more).1
  rw [same, second] at first
  have length : inner.length = other.length := by simpa using first.symm
  obtain ⟨rfl, tail⟩ := List.append_inj (List.cons.inj same).2 length
  exact ⟨rfl, (List.cons.inj tail).2⟩

end TapeScript.Brackets
