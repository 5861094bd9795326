import TapeScript.Proofs.Stage
import TapeScript.Proofs.Tape

/-! Tokens that only change the current cell or move the pointer. Two of them in a row come to one,
or to nothing, wherever the pointer is: cells outside the tape take part in neither. -/
namespace TapeScript

namespace State

variable {ρ : Type}

@[simp]
theorem move_zero (state : State ρ) : state.move 0 = state := by
  cases state
  simp [move]

theorem move_move (state : State ρ) (first second : Int) :
    (state.move first).move second = state.move (first + second) := by
  cases state
  simp [move, Int.add_assoc]

@[simp]
theorem add_zero (state : State ρ) (offset : Int) : state.add offset 0 = state := by
  cases state
  simp [add]

theorem add_add (state : State ρ) (offset : Int) (first second : Int32) :
    (state.add offset first).add offset second = state.add offset (first + second) := by
  cases state
  simp [add, Tape.add_add]

/-- Clearing a cell that is not set changes nothing, inside the tape or outside. -/
theorem put_of_unset {state : State ρ} (unset : state.isSet = false) : state.put 0 0 = state := by
  obtain ⟨tape, pointer, pending, host⟩ := state
  have zero : tape.read pointer = 0 := by simpa [isSet, Tape.isSet] using unset
  have same := tape.write_read pointer
  rw [zero] at same
  simp [put, same]

end State

namespace Token

variable {ρ : Type}

/-- The effect of a change or a move. -/
def shift (state : State ρ) (token : Token) : State ρ :=
  (state.add 0 (Int32.ofInt token.cellChange)).move token.displacement

/-- Counts that repeat something repeat it at least once. -/
def Counted (token : Token) : Prop := token.isFoldable = true → 1 ≤ token.amount

/-- Whatever can be counted counts once, and knows nothing but its kind. -/
def Once (token : Token) : Prop := token.isFoldable = true → token = .single token.kind

theorem kind_of_foldable {token : Token} (foldable : token.isFoldable = true) :
    token.kind = .inc ∨ token.kind = .dec ∨ token.kind = .right ∨ token.kind = .left := by
  simpa [isFoldable, isAddition, isMove, or_assoc] using foldable

theorem not_marker_of_foldable {token : Token} (foldable : token.isFoldable = true) :
    token.isMarker = false := by
  rcases kind_of_foldable foldable with kind | kind | kind | kind <;> simp [isMarker, kind]

theorem not_foldable_of_marker {token : Token} (marker : token.isMarker = true) : token.isFoldable = false := by
  cases foldable : token.isFoldable with
  | false => rfl
  | true => rw [not_marker_of_foldable foldable] at marker; cases marker

theorem not_extension_of_foldable {token : Token} (foldable : token.isFoldable = true) :
    token.kind ≠ .extension := by
  rcases kind_of_foldable foldable with kind | kind | kind | kind <;> simp [kind]

theorem act_foldable [Host ρ] {token : Token} (foldable : token.isFoldable = true) (meaning : Meaning ρ)
    (following : Nat) (state : State ρ) : token.act meaning following state = .stay (shift state token) := by
  obtain ⟨kind, amount, offset, divisor?, body?, symbol?⟩ := token
  rcases kind_of_foldable foldable with same | same | same | same <;> cases same <;>
    simp [act, perform, shift, cellChange, displacement, Behaviour.stay]

theorem kind_of_move {token : Token} (move : token.isMove = true) : token.kind = .right ∨ token.kind = .left := by
  simpa [isMove] using move

theorem kind_of_addition {token : Token} (addition : token.isAddition = true) :
    token.kind = .inc ∨ token.kind = .dec := by
  simpa [isAddition] using addition

theorem foldable_of_move {token : Token} (move : token.isMove = true) : token.isFoldable = true := by
  simp [isFoldable, move]

theorem foldable_of_addition {token : Token} (addition : token.isAddition = true) : token.isFoldable = true := by
  simp [isFoldable, addition]

theorem cellChange_of_move {token : Token} (move : token.isMove = true) : token.cellChange = 0 := by
  rcases kind_of_move move with kind | kind <;> simp [cellChange, kind]

theorem displacement_of_addition {token : Token} (addition : token.isAddition = true) : token.displacement = 0 := by
  rcases kind_of_addition addition with kind | kind <;> simp [displacement, kind]

theorem cellChange_ne_zero {token : Token} (addition : token.isAddition = true) (counted : token.Counted) :
    token.cellChange ≠ 0 := by
  have positive := counted (foldable_of_addition addition)
  rcases kind_of_addition addition with kind | kind <;> simp only [cellChange, kind] <;> omega

theorem act_move [Host ρ] {token : Token} (move : token.isMove = true) (meaning : Meaning ρ) (following : Nat)
    (state : State ρ) : token.act meaning following state = .stay (state.move token.displacement) := by
  rw [act_foldable (foldable_of_move move), shift, cellChange_of_move move]
  simp

theorem act_addition [Host ρ] {token : Token} (addition : token.isAddition = true) (meaning : Meaning ρ)
    (following : Nat) (state : State ρ) :
    token.act meaning following state = .stay (state.add 0 (Int32.ofInt token.cellChange)) := by
  rw [act_foldable (foldable_of_addition addition), shift, displacement_of_addition addition]
  simp

theorem act_clear [Host ρ] {token : Token} (clear : token.kind = .clear) (meaning : Meaning ρ) (following : Nat)
    (state : State ρ) : token.act meaning following state = .stay (state.put 0 0) := by
  cases token
  cases clear
  rfl

theorem actAll_foldable [Host ρ] {tokens : List Token} (foldable : ∀ token ∈ tokens, token.isFoldable = true)
    (meaning : Meaning ρ) (following : Nat) (state : State ρ) :
    actAll meaning following tokens state = .stay (tokens.foldl shift state) := by
  induction tokens generalizing state with
  | nil => rfl
  | cons token tokens ih =>
    rw [actAll, act_foldable (foldable token (by simp)), Behaviour.stay_bind,
      ih fun other member => foldable other (by simp [member])]
    rfl

theorem extensionCount_foldable {tokens : List Token} (foldable : ∀ token ∈ tokens, token.isFoldable = true) :
    extensionCount tokens = 0 := by
  apply List.countP_eq_zero.mpr
  intro token member
  simpa using not_extension_of_foldable (foldable token member)

end Token

namespace Alike

/-- Changes and moves that have the same effect on every state do the same. -/
theorem of_shifts (foldable : ∀ token ∈ tokens, token.isFoldable = true)
    (foldableOther : ∀ token ∈ others, token.isFoldable = true)
    (same : ∀ {ρ : Type} (state : State ρ), tokens.foldl Token.shift state = others.foldl Token.shift state) :
    Alike tokens others where
  count := by rw [Token.extensionCount_foldable foldable, Token.extensionCount_foldable foldableOther]
  acts meaning following state := by
    rw [Token.actAll_foldable foldable, Token.actAll_foldable foldableOther, same]

/-- Only kind and count of a change or a move matter. -/
theorem of_changes {token other : Token} (foldable : token.isFoldable = true)
    (foldableOther : other.isFoldable = true) (change : token.cellChange = other.cellChange)
    (distance : token.displacement = other.displacement) : Alike [token] [other] := by
  apply of_shifts (by simpa using foldable) (by simpa using foldableOther)
  intro ρ state
  simp [Token.shift, change, distance]

/-- Two neighbours come to one whose effect is their sum, unless a move stands before a change. -/
theorem merge {first second total : Token} (foldable : first.isFoldable = true)
    (foldableAfter : second.isFoldable = true) (foldableTotal : total.isFoldable = true)
    (order : first.displacement = 0 ∨ second.cellChange = 0)
    (change : total.cellChange = first.cellChange + second.cellChange)
    (distance : total.displacement = first.displacement + second.displacement) :
    Alike [first, second] [total] := by
  apply of_shifts (by simp [foldable, foldableAfter]) (by simpa using foldableTotal)
  intro ρ state
  rcases order with still | idle
  · simp [Token.shift, still, change, distance, State.add_add, Int32.ofInt_add]
  · simp [Token.shift, idle, change, distance, State.move_move]

/-- Two neighbours that undo each other come to nothing. -/
theorem cancel {first second : Token} (foldable : first.isFoldable = true)
    (foldableAfter : second.isFoldable = true) (order : first.displacement = 0 ∨ second.cellChange = 0)
    (change : first.cellChange + second.cellChange = 0)
    (distance : first.displacement + second.displacement = 0) : Alike [first, second] [] := by
  apply of_shifts (by simp [foldable, foldableAfter]) (by simp)
  intro ρ state
  rcases order with still | idle
  · have back : second.displacement = 0 := by omega
    simp [Token.shift, still, back, State.add_add, ← Int32.ofInt_add, change]
  · have unchanged : first.cellChange = 0 := by omega
    simp [Token.shift, idle, unchanged, State.move_move, distance]

/-- A single token, so many times, comes to one with that count. -/
theorem replicate {kind : TokenKind} (foldable : (Token.single kind).isFoldable = true) (count : Nat) :
    Alike (List.replicate count (.single kind)) [.counted kind count] := by
  have foldableAll (amount : Int) : (Token.counted kind amount).isFoldable = true := foldable
  have kinds := Token.kind_of_foldable foldable
  simp only [Token.single, Token.counted] at kinds
  induction count with
  | zero =>
    apply of_shifts (by simp) (by simpa using foldableAll 0)
    intro ρ state
    rcases kinds with same | same | same | same <;>
      simp [Token.shift, Token.counted, Token.cellChange, Token.displacement, same]
  | succ count ih =>
    apply (ih.cons (.single kind)).trans
    apply merge foldable (foldableAll _) (foldableAll _) <;>
      rcases kinds with same | same | same | same <;>
      simp [Token.single, Token.counted, Token.cellChange, Token.displacement, same] <;> omega

/-- A token stands for single ones, as many as it counts. -/
theorem expand {token : Token} (foldable : token.isFoldable = true) (counted : token.Counted) :
    Alike (List.replicate token.amount.toNat (.single token.kind)) [token] := by
  have amount : (token.amount.toNat : Int) = token.amount := Int.toNat_of_nonneg (by
    have positive := counted foldable
    omega)
  apply (replicate foldable _).trans
  rw [amount]
  exact of_changes foldable foldable rfl rfl

end Alike
end TapeScript
