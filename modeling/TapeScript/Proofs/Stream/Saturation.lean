import Mathlib.Data.List.Chain
import TapeScript.Proofs.Stream.Lasting

/-! Fusion leaves nothing to fuse. Whether some rule matches is settled by the first two tokens of its
window, so a stream is fused through when no two neighbours fuse. Neighbours that fusion leaves as they are
were neighbours before, where no rule matched; next to a token that fusion made no rule matches at all. -/
namespace TapeScript.Fusion

variable {tokens others : List Token} {first second token : Token}

/-- Neighbours that a rule takes together: a move and an update, or an addition and a single step. -/
def Fuses (first second : Token) : Prop :=
  first.isMove = true ∧ isUpdate second = true ∨
    first.isAddition = true ∧ second.isMove = true ∧ second.amount = 1

/-- No rule matches at the head of the stream. -/
def Idle (tokens : List Token) : Prop := ∀ rule ∈ rules, rule tokens = .ok none

theorem replacement?_none_iff {choices : List Rule} :
    replacement? tokens choices = .ok none ↔ ∀ rule ∈ choices, rule tokens = .ok none := by
  induction choices with
  | nil => simp [replacement?]
  | cons rule choices ih =>
    rw [List.forall_mem_cons, ← ih]
    cases found : rule tokens with
    | error error => simp [replacement?, found, bind, Except.bind]
    | ok found? => cases found? <;> simp [replacement?, found, bind, Except.bind]

theorem idle_nil : Idle [] := by
  simp only [Idle, rules, List.forall_mem_cons]
  exact ⟨rfl, rfl, rfl, by simp⟩

theorem idle_singleton (token : Token) : Idle [token] := by
  simp only [Idle, rules, List.forall_mem_cons]
  exact ⟨rfl, rfl, rfl, by simp⟩

private theorem thereAndBack_idle (apart : (first.isMove && isUpdate second) = false) (rest : List Token) :
    thereAndBack (first :: second :: rest) = .ok none := by
  cases rest with
  | nil => rfl
  | cons back rest => simp [thereAndBack, apart]

/-- A move and an update are fused, be it without the way back. -/
private theorem moveThenUpdate_busy (move : first.isMove = true) (update : isUpdate second = true) (rest : List Token) :
    moveThenUpdate (first :: second :: rest) ≠ .ok none := by
  by_cases clear : second.kind = .clear <;> simp [moveThenUpdate, move, update, clear]

private theorem updateThenStep_busy (addition : first.isAddition = true) (move : second.isMove = true)
    (amount : second.amount = 1) (rest : List Token) : updateThenStep (first :: second :: rest) ≠ .ok none := by
  rcases Token.kind_of_move move with kind | kind <;>
    simp [updateThenStep, addition, move, amount, Token.displacement, kind, Token.addMove, Error.require, bind,
      Except.bind]

/-- The first two tokens decide whether a rule matches: the rule for three tokens asks for what the rule
for the first two of them asks for. -/
theorem idle_iff (rest : List Token) : Idle (first :: second :: rest) ↔ ¬Fuses first second := by
  constructor
  · rintro idle (⟨move, update⟩ | ⟨addition, move, amount⟩)
    · exact moveThenUpdate_busy move update rest (idle moveThenUpdate (by simp [rules]))
    · exact updateThenStep_busy addition move amount rest (idle updateThenStep (by simp [rules]))
  · intro apart
    have noUpdate : (first.isMove && isUpdate second) = false := by
      rw [Bool.eq_false_iff]
      intro found
      exact apart (.inl ((Bool.and_eq_true _ _).mp found))
    have noStep : (first.isAddition && second.isMove && second.amount == 1) = false := by
      rw [Bool.eq_false_iff]
      intro found
      exact apart (.inr (by simpa [and_assoc] using found))
    simp only [Idle, rules, List.forall_mem_cons]
    exact ⟨thereAndBack_idle noUpdate rest, by simp [updateThenStep, noStep], by simp [moveThenUpdate, noUpdate],
      by simp⟩

theorem Fused.not_fuses_left (fused : Fused first) (second : Token) : ¬Fuses first second := by
  rcases fused with kind | kind | kind | kind | kind <;> simp [Fuses, Token.isMove, Token.isAddition, kind]

theorem Fused.not_fuses_right (fused : Fused second) (first : Token) : ¬Fuses first second := by
  rcases fused with kind | kind | kind | kind | kind <;>
    simp [Fuses, isUpdate, Token.isMove, Token.isAddition, kind]

/-- No two neighbours fuse. -/
def Saturated (tokens : List Token) : Prop := tokens.IsChain fun first second => ¬Fuses first second

theorem Saturated.idle (saturated : Saturated tokens) : Idle tokens := by
  match tokens with
  | [] => exact idle_nil
  | [token] => exact idle_singleton token
  | first :: second :: rest => exact (idle_iff rest).mpr (List.isChain_cons_cons.mp saturated).1

/-- Where no rule matches at any place, fusion leaves the stream as it is. -/
theorem Saturated.replaceAll_eq (saturated : Saturated tokens) : replaceAll tokens = .ok tokens := by
  rw [replaceAll]
  induction tokens with
  | nil => rfl
  | cons token tokens ih =>
    have none := replacement?_none_iff.mpr saturated.idle
    simp only [replaceAfter, none, ih saturated.tail, bind, Except.bind]

/-- What fusion makes is saturated. The induction keeps track of the first token: either fusion made it, or
it is the next of the stream, so that what comes before it had the same neighbour. -/
private theorem replaceAfter_saturated (taken : Nat) (replaced : replaceAfter taken tokens = .ok others) :
    Saturated others ∧ ∀ head ∈ others.head?, Fused head ∨ (tokens.drop taken).head? = some head := by
  induction tokens generalizing taken others with
  | nil =>
    obtain rfl : [] = others := by cases taken <;> exact Except.ok.inj replaced
    exact ⟨.nil, by simp⟩
  | cons token tokens ih =>
    cases taken with
    | succ taken => exact ih taken replaced
    | zero =>
      obtain ⟨found?, finds, replaced⟩ := bind_ok_iff.mp replaced
      cases found? with
      | none =>
        obtain ⟨rest, replacedRest, same⟩ := bind_ok_iff.mp replaced
        obtain rfl := Except.ok.inj same
        obtain ⟨saturated, headed⟩ := ih 0 replacedRest
        refine ⟨List.isChain_cons.mpr ⟨fun head member => ?_, saturated⟩, by simp⟩
        rcases headed head member with fused | kept
        · exact fused.not_fuses_right token
        · obtain ⟨rest, rfl⟩ := List.head?_eq_some_iff.mp kept
          exact (idle_iff rest).mp (replacement?_none_iff.mp finds)
      | some found =>
        obtain ⟨rest, replacedRest, same⟩ := bind_ok_iff.mp replaced
        obtain rfl := Except.ok.inj same
        obtain ⟨saturated, _⟩ := ih _ replacedRest
        have fused : Fused found.token := (replacement?_spends finds).fused
        refine ⟨List.isChain_cons.mpr ⟨fun head _ => fused.not_fuses_left head, saturated⟩, ?_⟩
        rintro head ⟨⟩
        exact .inl fused

/-- A stream that counts properly can be fused, and no rule matches at any place of what that makes. So to
fuse it again changes nothing, no move is followed by an update, and no addition by a single step. -/
theorem fusion_saturates (tokens : List Token) (counted : ∀ token ∈ tokens, token.Counted) :
    ∃ fused, replaceAll tokens = .ok fused ∧
      (∀ index, ∀ rule ∈ rules, rule (fused.drop index) = .ok none) ∧
      replaceAll fused = .ok fused ∧
      ∀ front first second rest, fused = front ++ first :: second :: rest →
        (first.isMove = true → isUpdate second = false) ∧
          (first.isAddition = true → ¬(second.isMove = true ∧ second.amount = 1)) := by
  have replaced := replaceAll_ok counted
  have saturated := (replaceAfter_saturated 0 replaced).1
  refine ⟨fuse tokens, replaced, fun index => Saturated.idle (saturated.drop index), saturated.replaceAll_eq, ?_⟩
  intro front first second rest split
  have apart := List.isChain_iff_forall_rel_of_append_cons_cons.mp saturated split
  constructor
  · intro move
    rw [Bool.eq_false_iff]
    exact fun update => apart (.inl ⟨move, update⟩)
  · exact fun addition step => apart (.inr ⟨addition, step⟩)

/-- Windows that overlap: the step belongs to the addition before it, and the one after it stays alone. -/
theorem fusion_saturates_overlap :
    let fused : List Token := [{ kind := .addMove, amount := 1, offset := 1 }, .single .inc, .clearAt (-2)]
    replaceAll [.single .inc, .single .right, .single .inc, .counted .left 2, .single .clear, .counted .right 2] =
        .ok fused ∧
      (∀ index, ∀ rule ∈ rules, rule (fused.drop index) = .ok none) ∧ replaceAll fused = .ok fused := by
  let tokens : List Token :=
    [.single .inc, .single .right, .single .inc, .counted .left 2, .single .clear, .counted .right 2]
  have counted : ∀ token ∈ tokens, token.Counted := by
    simp [tokens, Token.Counted, Token.single, Token.counted]
  obtain ⟨fused, made, idle, again, _⟩ := fusion_saturates tokens counted
  have found : replaceAll tokens =
      .ok [{ kind := .addMove, amount := 1, offset := 1 }, .single .inc, .clearAt (-2)] := rfl
  obtain rfl := Except.ok.inj (made.symm.trans found)
  exact ⟨found, idle, again⟩

end TapeScript.Fusion
