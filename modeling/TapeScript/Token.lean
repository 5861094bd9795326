import TapeScript.Error

/-! Tokens of the instruction stream. One record serves every stage, because each stage passes on
unchanged what it does not understand, whatever the fields hold. -/
namespace TapeScript

/-- The first twelve are made from source text, the next five by fusion of neighbours, the last
four by loop reduction. Numbers with no meaning are kept as they are. -/
inductive TokenKind where
  | inc | dec | clear | right | left | loopOpen | loopClose | scanRight | scanLeft
  | input | output | extension
  | addAt | clearAt | addMove | moveAdd | moveClear
  | reduced | mulAdd | condAdd | condClear
  | unknown (code : Int)
  deriving DecidableEq, Repr

namespace TokenKind

/-- Every kind that has a name, in the order of their numbers. -/
def all : List TokenKind :=
  [inc, dec, clear, right, left, loopOpen, loopClose, scanRight, scanLeft, input, output, extension,
    addAt, clearAt, addMove, moveAdd, moveClear, reduced, mulAdd, condAdd, condClear]

def name? : TokenKind → Option String
  | inc => some "inc"
  | dec => some "dec"
  | clear => some "clear"
  | right => some "right"
  | left => some "left"
  | loopOpen => some "loopOpen"
  | loopClose => some "loopClose"
  | scanRight => some "scanRight"
  | scanLeft => some "scanLeft"
  | input => some "input"
  | output => some "output"
  | extension => some "ext"
  | addAt => some "addAt"
  | clearAt => some "clearAt"
  | addMove => some "addMove"
  | moveAdd => some "moveAdd"
  | moveClear => some "moveClear"
  | reduced => some "reduced"
  | mulAdd => some "mulAdd"
  | condAdd => some "condAdd"
  | condClear => some "condClear"
  | unknown _ => none

def ofName? (name : String) : Option TokenKind := all.find? (·.name? == some name)

def ofCode (code : Int) : TokenKind :=
  match code with
  | .ofNat n => all[n]?.getD (unknown code)
  | .negSucc _ => unknown code

/-- The kind that undoes this one. -/
def inverse : TokenKind → Except Error TokenKind
  | inc => .ok dec
  | dec => .ok inc
  | right => .ok left
  | left => .ok right
  | kind => .error (.noInverse kind.name?)

end TokenKind

/-- A token. `amount` is the repeat count of a source-level token and the signed change of a fused or
reduced one; `offset` is a cell relative to the pointer or a move of the pointer. A reduced loop has statements
as its body, and its origin drops by `divisor?` per iteration; `symbol?` is the character of an extension. -/
structure Token where
  kind : TokenKind
  amount : Int := 1
  offset : Int := 0
  divisor? : Option Int := none
  body? : Option (List Token) := none
  symbol? : Option String := none
  deriving Repr

namespace Token

/-- A source-level token of the given repeat count. -/
def counted (kind : TokenKind) (amount : Int) : Token := { kind, amount }

def single (kind : TokenKind) : Token := counted kind 1

def extension (symbol : String) : Token := { kind := .extension, symbol? := some symbol }

/-- Change the cell at an offset. -/
def addAt (offset delta : Int) : Except Error Token := do
  Error.require (delta != 0) .assertion
  .ok { kind := .addAt, amount := delta, offset }

def clearAt (offset : Int) : Token := { kind := .clearAt, offset }

/-- Change the current cell, then step to a neighbour. -/
def addMove (delta step : Int) : Except Error Token := do
  Error.require (step == 1 || step == -1) .assertion
  .ok { kind := .addMove, amount := delta, offset := step }

/-- Move, then change the cell arrived at. -/
def moveAdd (shift delta : Int) : Token := { kind := .moveAdd, amount := delta, offset := shift }

def moveClear (shift : Int) : Token := { kind := .moveClear, offset := shift }

def reduced (body : List Token) : Token := { kind := .reduced, body? := some body }

/-- Change the cell at an offset once per iteration of a loop whose origin drops by `divisor` each
time. -/
def mulAdd (offset delta divisor : Int) : Except Error Token := do
  Error.require (offset != 0 && delta != 0 && divisor != 0) .assertion
  .ok { kind := .mulAdd, amount := delta, offset, divisor? := some divisor }

/-- Change the cell at an offset if the loop runs at all. -/
def condAdd (offset delta : Int) : Token := { kind := .condAdd, amount := delta, offset }

def condClear (offset : Int) : Token := { kind := .condClear, offset }

/-- The statements of a reduced loop; none without a body. -/
def body (token : Token) : List Token := token.body?.getD []

/-- The divisor of a multiplication; a missing one and zero count as one. -/
def divisor (token : Token) : Int :=
  match token.divisor? with
  | some 0 | none => 1
  | some divisor => divisor

def isMove (token : Token) : Bool := token.kind == .right || token.kind == .left

def isAddition (token : Token) : Bool := token.kind == .inc || token.kind == .dec

def isMarker (token : Token) : Bool := token.kind == .loopOpen || token.kind == .loopClose

/-- Tokens whose repetitions add up and whose opposites cancel. -/
def isFoldable (token : Token) : Bool := token.isAddition || token.isMove

/-- Signed pointer displacement of a move. -/
def displacement (token : Token) : Int :=
  match token.kind with
  | .right => token.amount
  | .left => -token.amount
  | _ => 0

/-- Signed cell change of an increment or decrement. -/
def cellChange (token : Token) : Int :=
  match token.kind with
  | .inc => token.amount
  | .dec => -token.amount
  | _ => 0

/-- Whether the iteration count of a reduced loop depends on division, so that it is computed ahead. -/
def needsCount (token : Token) : Bool :=
  token.kind == .mulAdd && token.divisor != 1 && token.divisor != -1

/-- The divisor of a reduced loop whose iteration count is computed ahead, or zero. -/
def loopDivisor (token : Token) : Int :=
  match token.body.find? needsCount with
  | some statement => statement.divisor
  | none => 0

end Token

/-- How many loops a stream holds. -/
def loopCount (tokens : List Token) : Nat := tokens.countP (·.kind == .loopOpen)

end TapeScript
