import TapeScript.Proofs.Numeric
import TapeScript.Proofs.Stream.ReducedBody

/-! A reduced loop does in one pass what the loop does in all its iterations, wherever its origin is
inside the tape. Outside, the loop is never entered but the statements still write. -/
namespace TapeScript.Reduction

variable {ρ : Type} {state : State ρ} {origin times : Int32} {once : Bool} {divisor : Int} {count : UInt32}

theorem isSet_of_read? (here : state.tape.read? state.pointer = some origin) :
    state.isSet = (origin != 0) := by
  simp [State.isSet, Tape.isSet, Tape.read, here]

private theorem divisor_eq (nonzero : divisor ≠ 0) (token : Token) (same : token.divisor? = some divisor) :
    token.divisor = divisor := by
  simp only [Token.divisor, same]

/-- What the statement of a change does where so many iterations were counted. -/
def Change.execute (once : Bool) (divisor : Int) (count : UInt32) (state : State ρ) : Change → State ρ
  | .clear offset => state.whenSet (·.put offset 0)
  | .settled offset delta => state.whenSet (·.add offset (Int32.ofInt delta))
  | .scaled offset delta =>
    if once then state.whenSet (·.add offset (Int32.ofInt delta)) else state.mulAdd offset delta divisor count

/-- What the statements of changes do, with the clearing of the origin. -/
def executeAll (once : Bool) (divisor : Int) (count : UInt32) : List Change → State ρ → State ρ
  | [], state => state.put 0 0
  | change :: changes, state => executeAll once divisor count changes (change.execute once divisor count state)

section

variable [Host ρ] (meaning : Meaning ρ)

private theorem perform_statement (divides : once = true ∨ divisor ≠ 0) (change : Change) (state : State ρ) :
    (change.token once divisor).perform meaning count state = .next (change.execute once divisor count state) := by
  cases change with
  | clear | settled => rfl
  | scaled offset delta =>
    cases once with
    | true => rfl
    | false =>
      have same := divisor_eq (divides.resolve_left (by simp)) { kind := .mulAdd, divisor? := some divisor } rfl
      have performed : (Change.token false divisor (.scaled offset delta)).perform meaning count state =
          .next (state.mulAdd offset delta (Token.divisor { kind := .mulAdd, divisor? := some divisor }) count) := rfl
      rw [performed, same]
      rfl

private theorem performAll_statements (divides : once = true ∨ divisor ≠ 0) (changes : List Change) (state : State ρ) :
    Token.performAll meaning count (changes.map (·.token once divisor) ++ [.clearAt 0]) state =
      .next (executeAll once divisor count changes state) := by
  induction changes generalizing state with
  | nil => rfl
  | cons change changes ih =>
    rw [List.map_cons, List.cons_append, Token.performAll, perform_statement meaning divides]
    exact ih _

private theorem perform_reduced {walk : Walk} (divides : walk.once = true ∨ walk.divisor ≠ 0) (state : State ρ) :
    (Token.reduced walk.body).perform meaning 0 state =
      .next (executeAll walk.once walk.divisor (if (Token.reduced walk.body).loopDivisor = 0 then 0
        else iterations (Token.reduced walk.body).loopDivisor (state.tape.read state.pointer))
        walk.changes.reverse state) :=
  performAll_statements meaning divides walk.changes.reverse state

end

/-- How the number of iterations, the origin and the count computed ahead are related. -/
structure Agrees (once : Bool) (divisor : Int) (origin times : Int32) (count : UInt32) (tokens : List Token) :
    Prop where
  alone : once = true → times = 1
  total : once = false → times * Int32.ofInt divisor = origin
  divides : once = true ∨ divisor ≠ 0
  counted : ∀ token ∈ tokens, token.needsCount = true → count.toInt32 = times

private theorem mulAdd_rewrites {offset delta : Int} (here : state.tape.read? state.pointer = some origin)
    (agrees : Agrees false divisor origin times count [Change.token false divisor (.scaled offset delta)]) :
    Rewrites (Change.apply times · (.scaled offset delta)) state (state.mulAdd offset delta divisor count) := by
  have divides := agrees.divides.resolve_left (by simp)
  unfold State.mulAdd
  split
  · rename_i unit
    have scaled : state.addScaled offset (delta * divisor) =
        state.add offset (origin * Int32.ofInt (delta * divisor)) := by
      obtain ⟨tape, pointer, pending, host⟩ := state
      simp only [State.addScaled, State.add]
      rw [here]
    have square : Int32.ofInt divisor * Int32.ofInt divisor = 1 := by
      rcases unit with rfl | rfl <;> decide
    have product : origin * Int32.ofInt (delta * divisor) = times * Int32.ofInt delta := by
      rw [← agrees.total rfl, Int32.ofInt_mul]
      grind
    rw [scaled, product]
    exact .add offset _ state
  · rename_i several
    have computed : count.toInt32 = times := by
      apply agrees.counted _ (List.mem_singleton.mpr rfl)
      have same := divisor_eq divides (Change.token false divisor (.scaled offset delta)) rfl
      simp only [Token.needsCount, same]
      simpa [Change.token] using several
    rw [computed]
    exact .add offset _ state

/-- A statement makes up for all iterations. -/
private theorem execute_rewrites {change : Change} (here : state.tape.read? state.pointer = some origin)
    (set : origin ≠ 0) (agrees : Agrees once divisor origin times count [change.token once divisor]) :
    Rewrites (change.apply times ·) state (change.execute once divisor count state) := by
  have whenSet (change : State ρ → State ρ) : state.whenSet change = change state := by
    simp [State.whenSet, isSet_of_read? here, set]
  cases change with
  | clear offset =>
    rw [Change.execute, whenSet]
    exact .put offset 0 state
  | settled offset delta =>
    rw [Change.execute, whenSet]
    exact .add offset _ state
  | scaled offset delta =>
    cases once with
    | true =>
      rw [Change.execute, if_pos rfl, whenSet]
      apply (Rewrites.add offset (Int32.ofInt delta) state).congr
      intro place value
      rw [Change.apply, agrees.alone rfl, Int32.one_mul]
    | false => exact mulAdd_rewrites here agrees

private theorem apply_origin {change : Change} (elsewhere : change.offset ≠ 0) (value : Int32) :
    change.apply times 0 value = value := by
  have apart : ¬0 = change.offset := Ne.symm elsewhere
  cases change <;> simp [Change.apply, Change.offset] at apart ⊢ <;> simp [apart]

/-- What the statements make of every cell, the origin being cleared last. -/
private theorem executeAll_rewrites (changes : List Change) (elsewhere : ∀ change ∈ changes, change.offset ≠ 0)
    (here : state.tape.read? state.pointer = some origin) (set : origin ≠ 0)
    (agrees : Agrees once divisor origin times count (changes.map (·.token once divisor))) :
    Rewrites (fun offset value => if offset = 0 then 0 else
      changes.foldl (fun value change => change.apply times offset value) value) state
      (executeAll once divisor count changes state) := by
  induction changes generalizing state with
  | nil => exact .put 0 0 state
  | cons change changes ih =>
    have first : Agrees once divisor origin times count [change.token once divisor] :=
      ⟨agrees.alone, agrees.total, agrees.divides, fun token member => agrees.counted token (by simp_all)⟩
    have others : Agrees once divisor origin times count (changes.map (·.token once divisor)) :=
      ⟨agrees.alone, agrees.total, agrees.divides, fun token member =>
        agrees.counted token (List.mem_cons_of_mem _ member)⟩
    have rewrites := execute_rewrites here set first
    have hereAfter : (change.execute once divisor count state).tape.read?
        (change.execute once divisor count state).pointer = some origin := by
      rw [rewrites.origin, here, Option.map_some, apply_origin (elsewhere change (by simp))]
    exact rewrites.trans (ih (fun other member => elsewhere other (by simp [member])) hereAfter others)

/-- The count is computed if a statement needs it, and then for the divisor of the walk. -/
theorem loopDivisor_cases (walk : Walk) (divides : walk.once = true ∨ walk.divisor ≠ 0) :
    (Token.reduced walk.body).loopDivisor = walk.divisor ∧ walk.once = false ∨
      (Token.reduced walk.body).loopDivisor = 0 ∧ ∀ token ∈ walk.body, token.needsCount = false := by
  have body : (Token.reduced walk.body).body = walk.body := rfl
  unfold Token.loopDivisor
  rw [body]
  cases found : walk.body.find? Token.needsCount with
  | none => exact .inr ⟨rfl, fun token member => by simpa using List.find?_eq_none.mp found token member⟩
  | some statement =>
    left
    have needs := List.find?_some found
    rcases List.mem_append.mp (List.mem_of_find?_eq_some found) with inside | last
    · obtain ⟨change, _, rfl⟩ := List.mem_map.mp inside
      cases change with
      | clear | settled => simp [Change.token, Token.condClear, Token.condAdd, Token.needsCount] at needs
      | scaled offset delta =>
        cases once : walk.once with
        | true => simp [Change.token, Token.condAdd, Token.needsCount, once] at needs
        | false => exact ⟨divisor_eq (divides.resolve_left (by simp [once])) _ rfl, rfl⟩
    · obtain rfl := List.mem_singleton.mp last
      simp [Token.clearAt, Token.needsCount] at needs

private theorem mulAdd_unentered (offset delta divisor : Int) (unset : state.isSet = false) :
    Rewrites (fun other value =>
        if ¬state.tape.Covers state.pointer ∧ other = offset ∧ (divisor = 1 ∨ divisor = -1) then 0 else value)
      state (state.mulAdd offset delta divisor 0) := by
  have inside : state.tape.Covers state.pointer ↔ (state.tape.read? state.pointer).isSome = true :=
    (Tape.read?_isSome ..).symm
  unfold State.mulAdd
  split
  · rename_i unit
    cases here : state.tape.read? state.pointer with
    | some origin =>
      obtain rfl : origin = 0 := by simpa [isSet_of_read? here] using unset
      have same : state.addScaled offset (delta * divisor) = state := by
        obtain ⟨tape, pointer, pending, host⟩ := state
        simp only [State.addScaled, here]
        simp
      rw [same]
      apply (Rewrites.refl state).congr
      simp [inside, here]
    | none =>
      -- There is no number to add, and the sum is stored as zero.
      have same : state.addScaled offset (delta * divisor) = state.put offset 0 := by
        obtain ⟨tape, pointer, pending, host⟩ := state
        simp only [State.addScaled, State.put, here]
      rw [same]
      apply (Rewrites.put offset 0 state).congr
      simp [inside, here, unit]
  · rename_i several
    have same : state.add offset ((0 : UInt32).toInt32 * Int32.ofInt delta) = state := by simp
    rw [same]
    apply (Rewrites.refl state).congr
    simp [several]

/-- Whether the statement of a change reads the origin to copy it to the cell at an offset. -/
def Change.copies (once : Bool) (divisor offset : Int) : Change → Bool
  | .scaled place _ => offset == place && !once && (divisor == 1 || divisor == -1)
  | .settled .. | .clear .. => false

/-- With no iteration there is nothing to make up for. A copy of the origin is made even so, and there may be
none to be read. -/
private theorem execute_unentered (once : Bool) (divisor : Int) (change : Change) (unset : state.isSet = false) :
    Rewrites (fun offset value =>
      if ¬state.tape.Covers state.pointer ∧ change.copies once divisor offset = true then 0 else value)
      state (change.execute once divisor 0 state) := by
  have whenSet (change : State ρ → State ρ) : state.whenSet change = state := by simp [State.whenSet, unset]
  have kept : Rewrites (fun _ value => value) state state := .refl state
  cases change with
  | clear offset =>
    rw [Change.execute, whenSet]
    exact kept.congr (by simp [Change.copies])
  | settled offset delta =>
    rw [Change.execute, whenSet]
    exact kept.congr (by simp [Change.copies])
  | scaled offset delta =>
    cases once with
    | true =>
      rw [Change.execute, if_pos rfl, whenSet]
      exact kept.congr (by simp [Change.copies])
    | false => exact (mulAdd_unentered offset delta divisor unset).congr (by simp [Change.copies])

private theorem executeAll_unentered (once : Bool) (divisor : Int) (changes : List Change)
    (unset : state.isSet = false) :
    Rewrites (fun offset value =>
      if ¬state.tape.Covers state.pointer ∧ changes.any (·.copies once divisor offset) = true then 0 else value)
      state (executeAll once divisor 0 changes state) := by
  induction changes generalizing state with
  | nil =>
    rw [executeAll, State.put_of_unset unset]
    exact (Rewrites.refl state).congr (by simp)
  | cons change changes ih =>
    have rewrites := execute_unentered once divisor change unset
    -- An origin that is zero stays zero, whatever is stored elsewhere.
    have unsetAfter : (change.execute once divisor 0 state).isSet = false := by
      have cell := rewrites.origin
      cases here : state.tape.read? state.pointer with
      | none =>
        rw [here, Option.map_none] at cell
        simp [State.isSet, Tape.isSet, Tape.read, cell]
      | some origin =>
        obtain rfl : origin = 0 := by simpa [isSet_of_read? here] using unset
        rw [here, Option.map_some, ite_self] at cell
        simp [isSet_of_read? cell]
    apply (rewrites.trans (ih unsetAfter)).congr
    intro offset value
    simp only [rewrites.covers, List.any_cons, Bool.or_eq_true]
    by_cases inside : state.tape.Covers state.pointer <;> grind

/-- A reduced loop that is not entered has no effect but that of its copies, where there is no origin to
be copied. -/
theorem reduced_unentered [Host ρ] {walk : Walk} (divides : walk.once = true ∨ walk.divisor ≠ 0) (meaning : Meaning ρ)
    (unset : state.isSet = false) :
    ∃ after, (Token.reduced walk.body).perform meaning 0 state = .next after ∧
      Rewrites (fun offset value => if ¬state.tape.Covers state.pointer ∧
        walk.changes.any (·.copies walk.once walk.divisor offset) = true then 0 else value) state after := by
  have origin : state.tape.read state.pointer = 0 := by simpa [State.isSet, Tape.isSet] using unset
  have rewrites := executeAll_unentered walk.once walk.divisor walk.changes.reverse unset
  refine ⟨_, ?_, by simpa only [List.any_reverse] using rewrites⟩
  rw [perform_reduced meaning divides, origin, iterations_zero, ite_self]

/-- With its origin inside the tape, a reduced loop that is not entered has no effect. -/
theorem reduced_idle [Host ρ] {walk : Walk} (divides : walk.once = true ∨ walk.divisor ≠ 0) (meaning : Meaning ρ)
    (unset : state.isSet = false) (covers : state.tape.Covers state.pointer) :
    (Token.reduced walk.body).perform meaning 0 state = .next state := by
  obtain ⟨after, performed, rewrites⟩ := reduced_unentered divides meaning unset
  have same : after = state := rewrites.unique (.refl state) (by simp [covers])
  rw [performed, same]

section

variable {body : State ρ → Behaviour ρ → Prop} {iterate : State ρ → State ρ}

private theorem repeat_shift (iterate : State ρ → State ρ) (count : Nat) (state : State ρ) :
    Nat.repeat iterate count (iterate state) = Nat.repeat iterate (count + 1) state := by
  induction count with
  | zero => rfl
  | succ count ih => exact congrArg iterate ih

/-- The loop of a body that always goes on is left after some number of iterations. -/
private theorem iterates {whole : Behaviour ρ}
    (acts : ∀ state last, body state last → last = .stay (iterate state)) (loop : Loop body state whole) :
    ∃ count, whole = .stay (Nat.repeat iterate count state) ∧ (Nat.repeat iterate count state).isSet = false ∧
      ∀ fewer < count, (Nat.repeat iterate fewer state).isSet = true := by
  induction loop with
  | skip unset => exact ⟨0, rfl, unset, fun fewer below => by omega⟩
  | again set first _ ih =>
    cases acts _ _ first
    obtain ⟨count, same, unset, path⟩ := ih
    refine ⟨count + 1, ?_, ?_, fun fewer below => ?_⟩
    · rw [same, repeat_shift]
      rfl
    · rw [← repeat_shift]
      exact unset
    · cases fewer with
      | zero => exact set
      | succ fewer =>
        rw [← repeat_shift]
        exact path fewer (by omega)
  | ended set first | failed set first => cases acts _ _ first

/-- It is left if it could be after any number of iterations. -/
private theorem loop_of_unset (acts : ∀ state, body state (.stay (iterate state))) (count : Nat)
    (unset : (Nat.repeat iterate count state).isSet = false) : ∃ whole, Loop body state whole := by
  induction count generalizing state with
  | zero => exact ⟨_, .skip unset⟩
  | succ count ih =>
    -- The loop may be left before that many iterations.
    cases set : state.isSet with
    | false => exact ⟨_, .skip set⟩
    | true =>
      rw [← repeat_shift] at unset
      obtain ⟨whole, rest⟩ := ih unset
      exact ⟨_, .again set (acts state) rest⟩

end

private theorem cell_again {walk : Walk} (settled : walk.Settled) (times : Int32) (offset : Int) (value : Int32) :
    walk.cell 1 offset (walk.cell times offset value) = walk.cell (times + 1) offset value := by
  unfold Walk.cell
  by_cases origin : offset = 0
  · simp only [if_pos origin]
    split
    · rfl
    · grind
  · simp only [if_neg origin]
    by_cases cleared : offset ∈ walk.cleared
    · obtain ⟨last, same⟩ := settled.fixed offset cleared
      rw [same, same]
    · obtain ⟨delta, same⟩ := settled.free offset cleared
      rw [same, same, same]
      grind

section

variable {walk : Walk} {body : List Token} (reducible : Reducible walk body)
include reducible

private theorem iterate_rewrites (state : State ρ) : Rewrites (walk.cell 1) state (body.foldl Token.effect state) := by
  have follows := reducible.describes.follows state
  rw [Walk.Follows, reducible.describes.position, reducible.balanced] at follows
  simpa using follows

private theorem repeat_rewrites (count : Nat) (state : State ρ) :
    Rewrites (walk.cell (Int32.ofInt (count + 1 : Nat))) state
      (Nat.repeat (body.foldl Token.effect ·) (count + 1) state) := by
  induction count with
  | zero => exact iterate_rewrites reducible state
  | succ count ih =>
    apply (ih.trans (iterate_rewrites reducible _)).congr
    intro offset value
    rw [cell_again reducible.describes.settled, Int.natCast_add (count + 1), Int32.ofInt_add]
    rfl

private theorem repeat_origin (count : Nat) (several : walk.once = false)
    (here : state.tape.read? state.pointer = some origin) :
    (Nat.repeat (body.foldl Token.effect ·) count state).isSet =
      (origin != Int32.ofInt (count * walk.divisor)) := by
  have cell : (Nat.repeat (body.foldl Token.effect ·) count state).tape.read?
      (Nat.repeat (body.foldl Token.effect ·) count state).pointer =
      some (origin - Int32.ofInt (count * walk.divisor)) := by
    cases count with
    | zero => simpa [Nat.repeat] using here
    | succ count =>
      rw [(repeat_rewrites reducible count state).origin, here]
      simp [Walk.cell, several]
  rw [isSet_of_read? cell]
  apply Bool.eq_iff_iff.mpr
  simp only [bne_iff_ne]
  constructor <;> intro apart same <;> apply apart <;> grind

/-- The iterations of a loop agree with the count that is computed for it. -/
private theorem agrees (small : walk.divisor.natAbs < UInt32.size) (count : Nat)
    (here : state.tape.read? state.pointer = some origin)
    (unset : (Nat.repeat (body.foldl Token.effect ·) (count + 1) state).isSet = false)
    (path : ∀ fewer < count + 1, (Nat.repeat (body.foldl Token.effect ·) fewer state).isSet = true) :
    Agrees walk.once walk.divisor origin (Int32.ofInt (count + 1 : Nat))
      (if (Token.reduced walk.body).loopDivisor = 0 then 0
        else iterations (Token.reduced walk.body).loopDivisor origin)
      (walk.changes.reverse.map (·.token walk.once walk.divisor)) where
  alone once := by
    have single : count = 0 := by
      apply Nat.eq_zero_of_not_pos
      intro more
      have set := path 1 (by omega)
      have cell := (repeat_rewrites reducible 0 state).origin
      rw [here] at cell
      rw [isSet_of_read? cell] at set
      simp [Walk.cell, once] at set
    rw [single]
    rfl
  total several := by
    rw [repeat_origin reducible _ several here] at unset
    rw [← Int32.ofInt_mul]
    simpa using Eq.symm (by simpa using unset)
  divides := reducible.ends
  counted token member needs := by
    rcases loopDivisor_cases walk reducible.ends with ⟨divisor, several⟩ | ⟨_, none⟩
    · have nonzero : walk.divisor ≠ 0 := reducible.ends.resolve_left (by simp [several])
      have total := repeat_origin reducible (count + 1) several here
      have exact' : (iterations walk.divisor origin).toNat = count + 1 := by
        apply iterations_eq nonzero small
        · rw [unset] at total
          exact Eq.symm (by simpa using total)
        · intro fewer below same
          have set := path fewer below
          rw [repeat_origin reducible fewer several here, same] at set
          simp at set
      rw [divisor, if_neg nonzero, Numeric.toInt32_eq, exact']
    · rw [none token (List.mem_append_left _ member)] at needs
      cases needs

/-- A loop with a reduced form ends if it is not entered, if it is run at most once, or if the drops of its
origin come to the origin. -/
theorem loop_ends_iff {runs : State ρ → Behaviour ρ → Prop} (small : walk.divisor.natAbs < UInt32.size)
    (here : state.tape.read? state.pointer = some origin)
    (acts : ∀ state last, runs state last ↔ last = .stay (body.foldl Token.effect state)) :
    (∃ whole, Loop runs state whole) ↔ origin = 0 ∨ walk.once = true ∨
      ∃ shift, Numeric.LargestPower shift walk.divisor ∧ (Numeric.twoTo shift : Int) ∣ origin.toInt := by
  have reaches (several : walk.once = false) :=
    reaches_iff (reducible.ends.resolve_left (by simp [several])) small origin
  constructor
  · rintro ⟨whole, loop⟩
    obtain ⟨count, _, unset, _⟩ := iterates (fun state last => (acts state last).mp) loop
    cases several : walk.once with
    | true => exact .inr (.inl rfl)
    | false =>
      rw [repeat_origin reducible count several here] at unset
      exact .inr (.inr ((reaches several).mp ⟨count, Eq.symm (by simpa using unset)⟩))
  · intro ends
    have left (count : Nat) (unset : (Nat.repeat (body.foldl Token.effect ·) count state).isSet = false) :=
      loop_of_unset (fun state => (acts state _).mpr rfl) count unset
    cases several : walk.once with
    | true =>
      have cell := (repeat_rewrites reducible 0 state).origin
      rw [here] at cell
      exact left 1 (by simp [isSet_of_read? cell, Walk.cell, several])
    | false =>
      rcases ends with zero | once | divides
      · exact left 0 (by simp [Nat.repeat, isSet_of_read? here, zero])
      · simp [several] at once
      · obtain ⟨count, same⟩ := (reaches several).mpr divides
        exact left count (by simp [repeat_origin reducible count several here, same])

/-- A loop with a reduced form leaves the pointer where it was. -/
theorem loop_stays {runs : State ρ → Behaviour ρ → Prop} {whole : Behaviour ρ}
    (acts : ∀ state last, runs state last → last = .stay (body.foldl Token.effect state))
    (loop : Loop runs state whole) : ∃ last, whole = .stay last ∧ last.pointer = state.pointer := by
  obtain ⟨count, rfl, _⟩ := iterates acts loop
  refine ⟨_, rfl, ?_⟩
  cases count with
  | zero => rfl
  | succ count => exact (repeat_rewrites reducible count state).pointer

/-- A loop with a reduced form leads where its reduced form does. -/
theorem reduced_acts [Host ρ] {runs : State ρ → Behaviour ρ → Prop} {whole : Behaviour ρ} (meaning : Meaning ρ)
    (following : Nat) (small : walk.divisor.natAbs < UInt32.size) (covers : state.tape.Covers state.pointer)
    (acts : ∀ state last, runs state last → last = .stay (body.foldl Token.effect state))
    (loop : Loop runs state whole) : whole = (Token.reduced walk.body).act meaning following state := by
  obtain ⟨origin, here⟩ := Option.isSome_iff_exists.mp ((Tape.read?_isSome _ _).mpr covers)
  have read : state.tape.read state.pointer = origin := by simp [Tape.read, here]
  have act : (Token.reduced walk.body).act meaning following state =
      ⟨[], (Token.reduced walk.body).perform meaning 0 state⟩ := rfl
  obtain ⟨count, rfl, unset, path⟩ := iterates acts loop
  rw [act]
  cases count with
  | zero =>
    have unset : state.isSet = false := unset
    rw [reduced_idle reducible.ends meaning unset covers]
    rfl
  | succ count =>
    have set : origin ≠ 0 := by
      have first := path 0 (by omega)
      rw [Nat.repeat, isSet_of_read? here] at first
      simpa using first
    have rewrites := executeAll_rewrites walk.changes.reverse
      (fun change member => reducible.describes.settled.elsewhere change (by simpa using member)) here set
      (agrees reducible small count here unset path)
    rw [perform_reduced meaning reducible.ends, read]
    refine congrArg Behaviour.stay ((repeat_rewrites reducible count state).unique rewrites ?_)
    intro offset value found
    by_cases first : offset = 0
    · subst first
      have last := (repeat_rewrites reducible count state).origin
      rw [Int.add_zero] at found
      rw [found] at last
      rw [isSet_of_read? last] at unset
      simpa using unset
    · rw [if_neg first, List.foldl_reverse, Walk.cell, if_neg first, applyAll]

end

end TapeScript.Reduction
