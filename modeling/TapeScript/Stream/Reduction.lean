import TapeScript.Token

/-! Reduction of innermost loops to straight-line code.

One iteration is followed with a pointer that starts at the origin, the cell the loop tests. What
the iteration does to the origin makes up the divisor, the amount by which the origin drops; every
other change becomes a statement that makes up for all iterations at once. A body that clears the
origin runs at most once. -/
namespace TapeScript.Reduction

/-- A change to a cell other than the origin: once per iteration, or settled by the last one, as the body has
cleared the cell before. -/
inductive Change where
  | scaled (offset delta : Int)
  | settled (offset delta : Int)
  | clear (offset : Int)
  deriving DecidableEq, Repr

/-- What is known after following part of an iteration, the changes last first. The origin is `touched` when it
was changed or cleared, and the loop runs at most `once` when it was cleared. -/
structure Walk where
  position : Int := 0
  divisor : Int := 0
  touched : Bool := false
  once : Bool := false
  changes : List Change := []
  cleared : List Int := []
  deriving Repr

/-- Whether a body holds nothing but moves, updates and clears. -/
def isPlain (body : List Token) : Bool := body.all fun token => token.isFoldable || token.kind == .clear

/-- How far the body moves the pointer. -/
def drift : List Token → Int
  | [] => 0
  | token :: body => token.displacement + drift body

/-- Follow one token; none if it changes the origin after clearing it, for then the loop does not
end. -/
def Walk.step (walk : Walk) (token : Token) : Option Walk :=
  if token.isMove then some { walk with position := walk.position + token.displacement }
  else if token.kind = .clear then
    if walk.position = 0 then some { walk with touched := true, once := true }
    else some { walk with
      changes := .clear walk.position :: walk.changes
      cleared := walk.position :: walk.cleared }
  else if walk.position = 0 then
    if walk.once then none
    else some { walk with touched := true, divisor := walk.divisor - token.cellChange }
  else
    let change : Change :=
      if walk.cleared.contains walk.position then .settled walk.position token.cellChange
      else .scaled walk.position token.cellChange
    some { walk with changes := change :: walk.changes }

/-- Follow the tokens of a body. -/
def Walk.along : Walk → List Token → Option Walk
  | walk, [] => some walk
  | walk, token :: tokens => (walk.step token).bind (·.along tokens)

/-- The statement for one change, given whether the loop runs at most once, and its divisor. -/
def Change.statement (once : Bool) (divisor : Int) : Change → Except Error Token
  | .clear offset => .ok (.condClear offset)
  | .settled offset delta => .ok (.condAdd offset delta)
  | .scaled offset delta =>
    if once then .ok (.condAdd offset delta) else Token.mulAdd offset delta divisor

def statements (once : Bool) (divisor : Int) : List Change → Except Error (List Token)
  | [] => .ok []
  | change :: changes => do
    let first ← change.statement once divisor
    let others ← statements once divisor changes
    .ok (first :: others)

/-- The reduced form of a loop with the given body, if it has one. The pointer must come back to the
origin, and the iteration must lead to an end. The origin is cleared last, so that the statements
before it see the value the loop was entered with. -/
def reduceBody (body : List Token) : Except Error (Option Token) :=
  if isPlain body && drift body == 0 then
    match Walk.along {} body with
    | none => .ok none
    | some walk =>
      if walk.touched && (walk.once || walk.divisor != 0) then do
        let changes ← statements walk.once walk.divisor walk.changes.reverse
        .ok (some (.reduced (changes ++ [.clearAt 0])))
      else .ok none
  else .ok none

/-- A stream with its innermost loops reduced, and how many loops were reduced and kept. -/
structure Result where
  tokens : List Token
  reduced : Nat
  kept : Nat
  deriving Repr

/-- A loop that is open: its opening marker, the tokens around it before the marker, last first, and
whether no other loop was found in it. -/
structure Frame where
  marker : Token
  before : List Token
  innermost : Bool

/-- Part of a stream taken in: the tokens since the innermost open marker, last first, and the loops
that are open. -/
structure Progress where
  done : List Token := []
  frames : List Frame := []
  reduced : Nat := 0
  kept : Nat := 0

def Progress.openLoop (progress : Progress) (marker : Token) : Progress :=
  let outer := match progress.frames with
    | [] => []
    | frame :: frames => { frame with innermost := false } :: frames
  { progress with done := [], frames := ⟨marker, progress.done, true⟩ :: outer }

def Progress.closeLoop (progress : Progress) (marker : Token) : Except Error Progress :=
  match progress.frames with
  | [] => .error .unbalancedLoop
  | frame :: frames => do
    let reduced? ← if frame.innermost then reduceBody progress.done.reverse else .ok none
    match reduced? with
    | some token =>
      .ok { done := token :: frame.before, frames, reduced := progress.reduced + 1, kept := progress.kept }
    | none =>
      .ok { done := marker :: (progress.done ++ frame.marker :: frame.before), frames
            reduced := progress.reduced, kept := progress.kept + 1 }

def Progress.take (progress : Progress) (token : Token) : Except Error Progress :=
  match token.kind with
  | .loopOpen => .ok (progress.openLoop token)
  | .loopClose => progress.closeLoop token
  | _ => .ok { progress with done := token :: progress.done }

/-- Reduce every innermost loop that can be. Loops around others stay, even if all the loops in them
were reduced. -/
def reduceStream (tokens : List Token) : Except Error Result := do
  let progress ← tokens.foldlM Progress.take {}
  Error.require progress.frames.isEmpty .unbalancedLoop
  .ok { tokens := progress.done.reverse, reduced := progress.reduced, kept := progress.kept }

end TapeScript.Reduction
