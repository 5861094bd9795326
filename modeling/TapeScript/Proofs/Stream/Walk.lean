import TapeScript.Proofs.Stream.Update
import TapeScript.Stream.Reduction

/-! One iteration of a loop that can be reduced, cell by cell. What is known of the iteration says what
becomes of the cell at every offset from the origin, in one iteration and in many. -/
namespace TapeScript

/-- The state differs in its cells only, each of which changes by a function of its offset from the
pointer. -/
structure Rewrites {ρ : Type} (change : Int → Int32 → Int32) (before after : State ρ) : Prop where
  pointer : after.pointer = before.pointer
  pending : after.pending = before.pending
  host : after.host = before.host
  cells : ∀ offset, after.tape.read? (before.pointer + offset) =
    (before.tape.read? (before.pointer + offset)).map (change offset)

namespace Rewrites

variable {ρ : Type} {before middle after other : State ρ} {change next : Int → Int32 → Int32}

theorem refl (state : State ρ) : Rewrites (fun _ value => value) state state :=
  ⟨rfl, rfl, rfl, fun offset => by simp⟩

theorem trans (first : Rewrites change before middle) (second : Rewrites next middle after) :
    Rewrites (fun offset value => next offset (change offset value)) before after where
  pointer := second.pointer.trans first.pointer
  pending := second.pending.trans first.pending
  host := second.host.trans first.host
  cells offset := by
    have cell := second.cells offset
    rw [first.pointer, first.cells] at cell
    rw [cell, Option.map_map]
    rfl

/-- The change of every cell that there is determines the state. -/
theorem unique (first : Rewrites change before after) (second : Rewrites next before other)
    (same : ∀ offset value, before.tape.read? (before.pointer + offset) = some value →
      change offset value = next offset value) : after = other := by
  obtain ⟨tape, pointer, pending, host⟩ := after
  obtain ⟨otherTape, otherPointer, otherPending, otherHost⟩ := other
  have tapes : tape = otherTape := by
    apply Tape.ext_read?
    intro position
    have cell := first.cells (position - before.pointer)
    have otherCell := second.cells (position - before.pointer)
    have here : before.pointer + (position - before.pointer) = position := by omega
    rw [here] at cell otherCell
    rw [cell, otherCell]
    cases found : before.tape.read? position with
    | none => rfl
    | some value => exact congrArg some (same _ value (here.symm ▸ found))
  obtain rfl := first.pointer
  obtain rfl := first.pending
  obtain rfl := first.host
  obtain rfl := second.pointer
  obtain rfl := second.pending
  obtain rfl := second.host
  rw [tapes]

theorem congr (rewrites : Rewrites change before after)
    (same : ∀ offset value, change offset value = next offset value) :
    Rewrites next before after where
  pointer := rewrites.pointer
  pending := rewrites.pending
  host := rewrites.host
  cells offset := by
    rw [rewrites.cells]
    congr 1
    funext value
    exact same offset value

theorem put (offset : Int) (value : Int32) (state : State ρ) :
    Rewrites (fun other old => if other = offset then value else old) state (state.put offset value) := by
  refine ⟨rfl, rfl, rfl, fun other => ?_⟩
  by_cases same : other = offset
  · simp [State.put, same]
  · have apart : ¬state.pointer + other = state.pointer + offset := by omega
    simp [State.put, same, apart]

theorem add (offset : Int) (delta : Int32) (state : State ρ) :
    Rewrites (fun other old => if other = offset then old + delta else old) state (state.add offset delta) := by
  refine ⟨rfl, rfl, rfl, fun other => ?_⟩
  by_cases same : other = offset
  · simp [State.add, same]
  · have apart : ¬state.pointer + other = state.pointer + offset := by omega
    simp [State.add, same, apart]

/-- The cell at the pointer. -/
theorem origin (rewrites : Rewrites change before after) :
    after.tape.read? after.pointer = (before.tape.read? before.pointer).map (change 0) := by
  have cell := rewrites.cells 0
  rw [Int.add_zero] at cell
  rw [rewrites.pointer, cell]

theorem covers (rewrites : Rewrites change before after) :
    after.tape.Covers after.pointer ↔ before.tape.Covers before.pointer := by
  rw [← Tape.read?_isSome, ← Tape.read?_isSome, rewrites.origin, Option.isSome_map]

end Rewrites

namespace Reduction

variable {token : Token} {body : List Token}

theorem isPlain_cons : isPlain (token :: body) = true ↔
    (token.isFoldable = true ∨ token.kind = .clear) ∧ isPlain body = true := by
  simp [isPlain]

theorem kind_of_plain (plain : isPlain body = true) (member : token ∈ body) :
    token.isFoldable = true ∨ token.kind = .clear := by
  simpa using List.all_eq_true.mp plain token member

end Reduction

namespace Token

variable {ρ : Type}

/-- The effect of a change, a move or a clear. -/
def effect (state : State ρ) (token : Token) : State ρ :=
  if token.kind = .clear then state.put 0 0 else shift state token

theorem effect_clear {token : Token} (clear : token.kind = .clear) (state : State ρ) :
    effect state token = state.put 0 0 :=
  if_pos clear

theorem effect_move {token : Token} (move : token.isMove = true) (state : State ρ) :
    effect state token = state.move token.displacement := by
  have dirty : token.kind ≠ .clear := by
    intro clear
    simp [isMove, clear] at move
  rw [effect, if_neg dirty, shift, cellChange_of_move move]
  simp

theorem effect_addition {token : Token} (addition : token.isAddition = true) (state : State ρ) :
    effect state token = state.add 0 (Int32.ofInt token.cellChange) := by
  have dirty : token.kind ≠ .clear := by
    intro clear
    simp [isAddition, clear] at addition
  rw [effect, if_neg dirty, shift, displacement_of_addition addition, State.move_zero]

theorem actAll_plain [Host ρ] {tokens : List Token} (plain : Reduction.isPlain tokens = true) (meaning : Meaning ρ)
    (following : Nat) (state : State ρ) :
    actAll meaning following tokens state = .stay (tokens.foldl effect state) := by
  induction tokens generalizing state with
  | nil => rfl
  | cons token tokens ih =>
    obtain ⟨first, others⟩ := Reduction.isPlain_cons.mp plain
    have effects : token.act meaning (extensionCount tokens + following) state = .stay (effect state token) := by
      by_cases clear : token.kind = .clear
      · rw [act_clear clear, effect, if_pos clear]
      · rw [act_foldable (first.resolve_right clear), effect, if_neg clear]
    rw [actAll, effects, Behaviour.stay_bind, ih others]
    rfl

end Token

namespace Reduction

/-- What a change makes of the cell at an offset in so many iterations. -/
def Change.apply (times : Int32) (offset : Int) : Change → Int32 → Int32
  | .scaled place delta, value => if offset = place then value + times * Int32.ofInt delta else value
  | .settled place delta, value => if offset = place then value + Int32.ofInt delta else value
  | .clear place, value => if offset = place then 0 else value

def Change.offset : Change → Int
  | .scaled offset _ | .settled offset _ | .clear offset => offset

/-- The change itself; a clear counts as some change. -/
def Change.delta : Change → Int
  | .scaled _ delta | .settled _ delta => delta
  | .clear _ => 1

/-- What changes, last first, make of the cell at an offset. -/
def applyAll (times : Int32) (offset : Int) (changes : List Change) (value : Int32) : Int32 :=
  changes.foldr (·.apply times offset) value

namespace Walk

/-- What so many iterations make of the cell at an offset. -/
def cell (walk : Walk) (times : Int32) (offset : Int) (value : Int32) : Int32 :=
  if offset = 0 then if walk.once then 0 else value - times * Int32.ofInt walk.divisor
  else applyAll times offset walk.changes value

/-- The ways to follow a token. -/
inductive Steps (walk : Walk) (token : Token) : Walk → Prop where
  | move (move : token.isMove = true) :
      Steps walk token { walk with position := walk.position + token.displacement }
  | clearOrigin (clear : token.kind = .clear) (here : walk.position = 0) :
      Steps walk token { walk with touched := true, once := true }
  | clear (clear : token.kind = .clear) (elsewhere : walk.position ≠ 0) :
      Steps walk token { walk with
        changes := .clear walk.position :: walk.changes
        cleared := walk.position :: walk.cleared }
  | origin (addition : token.isAddition = true) (here : walk.position = 0) (free : walk.once = false) :
      Steps walk token { walk with touched := true, divisor := walk.divisor - token.cellChange }
  | settled (addition : token.isAddition = true) (elsewhere : walk.position ≠ 0)
      (before : walk.position ∈ walk.cleared) :
      Steps walk token { walk with changes := .settled walk.position token.cellChange :: walk.changes }
  | scaled (addition : token.isAddition = true) (elsewhere : walk.position ≠ 0)
      (never : walk.position ∉ walk.cleared) :
      Steps walk token { walk with changes := .scaled walk.position token.cellChange :: walk.changes }

theorem steps {walk next : Walk} {token : Token} (plain : token.isFoldable = true ∨ token.kind = .clear)
    (step : walk.step token = some next) : walk.Steps token next := by
  unfold Walk.step at step
  split at step
  · cases step
    exact .move ‹_›
  · rename_i still
    split at step
    · rename_i clear
      split at step <;> cases step
      · exact .clearOrigin clear ‹_›
      · exact .clear clear ‹_›
    · rename_i dirty
      have addition : token.isAddition = true := by
        have foldable := plain.resolve_right dirty
        simpa [Token.isFoldable, still] using foldable
      split at step
      · split at step
        · cases step
        · cases step
          exact .origin addition ‹_› (by simpa using ‹¬walk.once = true›)
      · split at step <;> cases step <;> rename_i found
        · exact .settled addition ‹_› (by simpa using found)
        · exact .scaled addition ‹_› (by simpa using found)

theorem Steps.position {walk next : Walk} {token : Token} (steps : walk.Steps token next) :
    next.position = walk.position + token.displacement := by
  cases steps with
  | move => rfl
  | clearOrigin clear | clear clear => simp [Token.displacement, clear]
  | origin addition | settled addition | scaled addition => simp [Token.displacement_of_addition addition]

/-- Changes before the first clear of a cell count once per iteration, changes after it once in all. -/
structure Settled (walk : Walk) : Prop where
  elsewhere : ∀ change ∈ walk.changes, change.offset ≠ 0
  free : ∀ offset, offset ∉ walk.cleared →
    ∃ delta : Int32, ∀ times value, applyAll times offset walk.changes value = value + times * delta
  fixed : ∀ offset, offset ∈ walk.cleared →
    ∃ last : Int32, ∀ times value, applyAll times offset walk.changes value = last

theorem settled_start : Settled {} where
  elsewhere change member := by simp at member
  free offset _ := ⟨0, by simp [applyAll]⟩
  fixed offset member := by simp at member

private theorem applyAll_cons (times : Int32) (offset : Int) (change : Change) (changes : List Change)
    (value : Int32) :
    applyAll times offset (change :: changes) value = change.apply times offset (applyAll times offset changes value) :=
  rfl

theorem Settled.step {walk next : Walk} {token : Token} (settled : walk.Settled) (steps : walk.Steps token next) :
    next.Settled := by
  cases steps with
  | move => exact ⟨settled.elsewhere, settled.free, settled.fixed⟩
  | clearOrigin => exact ⟨settled.elsewhere, settled.free, settled.fixed⟩
  | origin => exact ⟨settled.elsewhere, settled.free, settled.fixed⟩
  | clear clear elsewhere =>
    refine ⟨?_, fun offset free => ?_, fun offset fixed => ?_⟩
    · intro change member
      rcases List.mem_cons.mp member with rfl | old
      · exact elsewhere
      · exact settled.elsewhere change old
    · obtain ⟨apart, free⟩ : offset ≠ walk.position ∧ offset ∉ walk.cleared := by simpa using free
      simpa [applyAll_cons, Change.apply, apart] using settled.free offset free
    · by_cases here : offset = walk.position
      · exact ⟨0, fun times value => by simp [applyAll_cons, Change.apply, here]⟩
      · have old : offset ∈ walk.cleared := (List.mem_cons.mp fixed).resolve_left here
        simpa [applyAll_cons, Change.apply, here] using settled.fixed offset old
  | settled addition elsewhere before =>
    refine ⟨?_, fun offset free => ?_, fun offset fixed => ?_⟩
    · intro change member
      rcases List.mem_cons.mp member with rfl | old
      · exact elsewhere
      · exact settled.elsewhere change old
    · have apart : offset ≠ walk.position := by
        rintro rfl
        exact free before
      simpa [applyAll_cons, Change.apply, apart] using settled.free offset free
    · obtain ⟨last, same⟩ := settled.fixed offset fixed
      by_cases here : offset = walk.position
      · exact ⟨last + Int32.ofInt token.cellChange, fun times value => by
          simp only [applyAll_cons, Change.apply, same, if_pos here]⟩
      · exact ⟨last, fun times value => by simp only [applyAll_cons, Change.apply, same, if_neg here]⟩
  | scaled addition elsewhere never =>
    refine ⟨?_, fun offset free => ?_, fun offset fixed => ?_⟩
    · intro change member
      rcases List.mem_cons.mp member with rfl | old
      · exact elsewhere
      · exact settled.elsewhere change old
    · obtain ⟨delta, same⟩ := settled.free offset free
      by_cases here : offset = walk.position
      · refine ⟨delta + Int32.ofInt token.cellChange, fun times value => ?_⟩
        simp only [applyAll_cons, Change.apply, same, if_pos here]
        rw [Int32.mul_add, Int32.add_assoc]
      · exact ⟨delta, fun times value => by simp only [applyAll_cons, Change.apply, same, if_neg here]⟩
    · have apart : offset ≠ walk.position := by
        rintro rfl
        exact never fixed
      simpa [applyAll_cons, Change.apply, apart] using settled.fixed offset fixed

variable {ρ : Type} {start current : State ρ}

/-- A state as far through an iteration as the walk, with what has happened since its start. -/
def Follows (walk : Walk) (start current : State ρ) : Prop :=
  Rewrites (walk.cell 1) start (current.move (-walk.position))

private theorem put_here (walk : Walk) (state : State ρ) (value : Int32) :
    (state.put 0 value).move (-walk.position) = (state.move (-walk.position)).put walk.position value := by
  obtain ⟨tape, pointer, pending, host⟩ := state
  have here : pointer + 0 = pointer + -walk.position + walk.position := by omega
  simp only [State.put, State.move, here]

private theorem add_here (walk : Walk) (state : State ρ) (delta : Int32) :
    (state.add 0 delta).move (-walk.position) = (state.move (-walk.position)).add walk.position delta := by
  obtain ⟨tape, pointer, pending, host⟩ := state
  have here : pointer + 0 = pointer + -walk.position + walk.position := by omega
  simp only [State.add, State.move, here]

theorem Follows.step {walk next : Walk} {token : Token} (follows : walk.Follows start current)
    (steps : walk.Steps token next) : next.Follows start (Token.effect current token) := by
  cases steps with
  | move move =>
    have same : (Token.effect current token).move (-(walk.position + token.displacement)) =
        current.move (-walk.position) := by
      rw [Token.effect_move move, State.move_move]
      congr 1
      omega
    unfold Follows
    rw [same]
    exact follows
  | clearOrigin clear here =>
    unfold Follows
    rw [Token.effect_clear clear, put_here, here]
    rw [Follows, here] at follows
    apply (follows.trans (.put 0 0 _)).congr
    intro offset value
    by_cases origin : offset = 0 <;> simp [cell, origin]
  | clear clear elsewhere =>
    unfold Follows
    rw [Token.effect_clear clear, put_here]
    apply (follows.trans (.put walk.position 0 _)).congr
    intro offset value
    by_cases origin : offset = 0
    · simp [cell, origin, elsewhere.symm]
    · simp only [cell, if_neg origin, applyAll_cons, Change.apply]
  | origin addition here free =>
    unfold Follows
    rw [Token.effect_addition addition, add_here, here]
    rw [Follows, here] at follows
    apply (follows.trans (.add 0 _ _)).congr
    intro offset value
    by_cases origin : offset = 0
    · simp only [cell, origin, if_pos, free, Int32.ofInt_sub]
      grind
    · simp only [cell, if_neg origin]
  | settled addition elsewhere before =>
    unfold Follows
    rw [Token.effect_addition addition, add_here]
    apply (follows.trans (.add walk.position _ _)).congr
    intro offset value
    by_cases origin : offset = 0
    · simp [cell, origin, elsewhere.symm]
    · simp only [cell, if_neg origin, applyAll_cons, Change.apply]
  | scaled addition elsewhere never =>
    unfold Follows
    rw [Token.effect_addition addition, add_here]
    apply (follows.trans (.add walk.position _ _)).congr
    intro offset value
    by_cases origin : offset = 0
    · simp [cell, origin, elsewhere.symm]
    · simp only [cell, if_neg origin, applyAll_cons, Change.apply, Int32.one_mul]

/-- What holds of the start of a walk and is kept by its steps holds of its end. -/
theorem along_induction {motive : Walk → List Token → Prop} {body : List Token} {walk last : Walk}
    (plain : isPlain body = true) (along : walk.along body = some last)
    (start : motive walk [])
    (step : ∀ walk next done token, motive walk done → walk.Steps token next → motive next (done ++ [token])) :
    motive last body := by
  have all (rest done : List Token) (walk : Walk) (plain : isPlain rest = true) (along : walk.along rest = some last)
      (now : motive walk done) : motive last (done ++ rest) := by
    induction rest generalizing done walk with
    | nil =>
      cases along
      simpa using now
    | cons token rest ih =>
      obtain ⟨first, others⟩ := isPlain_cons.mp plain
      obtain ⟨next, stepped, alongRest⟩ := Option.bind_eq_some_iff.mp along
      simpa using ih (done ++ [token]) next others alongRest (step _ _ _ _ now (steps first stepped))
  simpa using all body [] walk plain along start

theorem drift_append (tokens others : List Token) : drift (tokens ++ others) = drift tokens + drift others := by
  induction tokens with
  | nil => simp [drift]
  | cons token tokens ih => rw [List.cons_append, drift, drift, ih, Int.add_assoc]

/-- What a walk along a whole body knows. -/
structure Describes (walk : Walk) (body : List Token) : Prop where
  settled : walk.Settled
  position : walk.position = drift body
  divisor : walk.divisor.natAbs ≤ Token.weight body
  changes : (∀ token ∈ body, token.Counted) → ∀ change ∈ walk.changes, change.delta ≠ 0
  follows : ∀ {ρ : Type} (start : State ρ), walk.Follows start (body.foldl Token.effect start)

private theorem describes_step {walk next : Walk} {done : List Token} {token : Token} (describes : walk.Describes done)
    (steps : walk.Steps token next) : next.Describes (done ++ [token]) where
  settled := describes.settled.step steps
  position := by
    have last : drift [token] = token.displacement := Int.add_zero _
    rw [drift_append, ← describes.position, last, steps.position]
  divisor := by
    have before := describes.divisor
    have last : Token.weight [token] = token.cellChange.natAbs := by simp [Token.weight]
    rw [Token.weight_append, last]
    cases steps with
    | origin =>
      show (walk.divisor - token.cellChange).natAbs ≤ _
      omega
    | move | clearOrigin | clear | settled | scaled => exact Nat.le_trans before (Nat.le_add_right _ _)
  changes counted change member := by
    have before := describes.changes fun token member => counted token (by simp [member])
    have delta (addition : token.isAddition = true) : token.cellChange ≠ 0 :=
      Token.cellChange_ne_zero addition (counted token (by simp))
    cases steps with
    | move | clearOrigin | origin => exact before change member
    | clear =>
      rcases List.mem_cons.mp member with rfl | old
      · simp [Change.delta]
      · exact before change old
    | settled addition | scaled addition =>
      rcases List.mem_cons.mp member with rfl | old
      · exact delta addition
      · exact before change old
  follows start := by
    rw [List.foldl_append]
    exact (describes.follows start).step steps

theorem along_describes {walk : Walk} {body : List Token} (plain : isPlain body = true)
    (along : Walk.along {} body = some walk) : walk.Describes body := by
  refine along_induction (motive := Describes) plain along ?_ fun _ _ _ _ => describes_step
  refine ⟨settled_start, rfl, Nat.le_refl _, fun _ change member => by simp at member, fun start => ?_⟩
  have same : start.move (-(Walk.position {})) = start := by
    cases start
    simp [State.move]
  rw [Follows, List.foldl_nil, same]
  apply (Rewrites.refl start).congr
  intro offset value
  by_cases origin : offset = 0 <;> simp [cell, origin, applyAll]

end Walk
end Reduction
end TapeScript
