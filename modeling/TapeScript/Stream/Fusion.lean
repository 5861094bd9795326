import TapeScript.Token

/-! Fusion of neighbouring moves and updates into one token. A rule looks at the head of the stream
only; whatever none of them matches stays as it is. -/
namespace TapeScript.Fusion

/-- A token and how many tokens at the head of the stream it replaces. -/
structure Replacement where
  token : Token
  length : Nat
  deriving Repr

abbrev Rule := List Token → Except Error (Option Replacement)

/-- An increment, a decrement or a clear. -/
def isUpdate (token : Token) : Bool := token.isAddition || token.kind == .clear

/-- Go somewhere, update, come back. -/
def thereAndBack : Rule
  | go :: update :: back :: _ =>
    if go.isMove && isUpdate update then do
      let inverse ← go.kind.inverse
      if back.kind = inverse ∧ back.amount = go.amount then
        if update.kind = .clear then .ok (some ⟨.clearAt go.displacement, 3⟩)
        else do
          let token ← Token.addAt go.displacement update.cellChange
          .ok (some ⟨token, 3⟩)
      else .ok none
    else .ok none
  | _ => .ok none

/-- Update, then one step. -/
def updateThenStep : Rule
  | update :: go :: _ =>
    if update.isAddition && go.isMove && go.amount == 1 then do
      let token ← Token.addMove update.cellChange go.displacement
      .ok (some ⟨token, 2⟩)
    else .ok none
  | _ => .ok none

/-- Go somewhere and update there. -/
def moveThenUpdate : Rule
  | go :: update :: _ =>
    if go.isMove && isUpdate update then
      if update.kind = .clear then .ok (some ⟨.moveClear go.displacement, 2⟩)
      else .ok (some ⟨.moveAdd go.displacement update.cellChange, 2⟩)
    else .ok none
  | _ => .ok none

/-- The rules in the order in which they are tried. -/
def rules : List Rule := [thereAndBack, updateThenStep, moveThenUpdate]

/-- What the first rule that matches makes of the head of a stream. -/
def replacement? (tokens : List Token) : List Rule → Except Error (Option Replacement)
  | [] => .ok none
  | rule :: rules => do
    match ← rule tokens with
    | some found => .ok (some found)
    | none => replacement? tokens rules

/-- Fuse a stream whose first `taken` tokens are replaced already. -/
def replaceAfter : Nat → List Token → Except Error (List Token)
  | _, [] => .ok []
  | taken + 1, _ :: tokens => replaceAfter taken tokens
  | 0, token :: tokens => do
    match ← replacement? (token :: tokens) rules with
    | some found => do
      let rest ← replaceAfter (found.length - 1) tokens
      .ok (found.token :: rest)
    | none => do
      let rest ← replaceAfter 0 tokens
      .ok (token :: rest)

/-- Fuse a stream. -/
def replaceAll (tokens : List Token) : Except Error (List Token) := replaceAfter 0 tokens

end TapeScript.Fusion
