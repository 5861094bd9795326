import TapeScript.Extension
import TapeScript.Script.Count
import TapeScript.Script.Frame
import TapeScript.Token

/-! The program text of a stream: one template per token, in order, indented by loop depth. -/
namespace TapeScript

/-- What the statements of a program depend on besides its tokens. -/
structure Dialect where
  eof : EndOfInput := .halt
  extensions : List Extension := []

namespace Token

/-- Change of a cell in a reduced loop, by all its iterations at once. A divisor of one or minus one
needs no count, as the origin is the count up to its sign. -/
def multiplyStatement (offset amount divisor : Int) : String :=
  if divisor = 1 ∨ divisor = -1 then Script.scaledAdd (Script.cellAt offset) (amount * divisor)
  else Script.countedAdd (Script.cellAt offset) amount

/-- The statement that computes the iteration count, where one is needed. -/
def countStatement (token : Token) : Except Error (List String) :=
  if token.loopDivisor = 0 then .ok []
  else do
    let count ← CountFormula.ofDivisor token.loopDivisor
    .ok ["n = " ++ count.text ++ ";"]

mutual

/-- The statements of one token, without the last line break. -/
def template (dialect : Dialect) : Token → Except Error String
  | ⟨kind, amount, offset, divisor?, body?, symbol?⟩ =>
    match kind with
    | .inc => .ok (Script.increase "d[p]" amount)
    | .dec => .ok (Script.increase "d[p]" (-amount))
    | .clear => .ok "d[p] = 0;"
    | .right => .ok (Script.movePointer amount)
    | .left => .ok (Script.movePointer (-amount))
    | .loopOpen => .ok Script.loopOpen
    | .loopClose => .ok Script.loopClose
    | .scanRight => .ok Script.scanRight
    | .scanLeft => .ok Script.scanLeft
    | .output => .ok Script.output
    | .input => .ok (Script.input dialect.eof)
    | .extension =>
      match Extension.template? dialect.extensions symbol? with
      | some template => .ok template
      | none => .error (.noTemplate symbol?)
    | .addAt => .ok (Script.increase (Script.cellAt offset) amount)
    | .clearAt => .ok (Script.cellAt offset ++ " = 0;")
    | .addMove => .ok (Script.increase "d[p]" amount ++ "\n" ++ Script.movePointer offset)
    | .moveAdd => .ok (Script.increase (Script.cellAfterMove offset) amount)
    | .moveClear => .ok (Script.cellAfterMove offset ++ " = 0;")
    | .reduced => do
      let lines ← bodyTemplates dialect body?
      let count ← countStatement { kind, body? }
      .ok ("\n".intercalate (count ++ lines))
    | .mulAdd => .ok (multiplyStatement offset amount (divisor { kind, divisor? }))
    | .condAdd => .ok ("if (d[p]) " ++ Script.increase (Script.cellAt offset) amount)
    | .condClear => .ok ("if (d[p]) " ++ Script.cellAt offset ++ " = 0;")
    | .unknown code => .error (.unknownKind code)

/-- The statements of the body of a reduced loop. -/
def bodyTemplates (dialect : Dialect) : Option (List Token) → Except Error (List String)
  | none => .ok []
  | some tokens => templates dialect tokens

/-- The statements of each token of a stream. -/
def templates (dialect : Dialect) : List Token → Except Error (List String)
  | [] => .ok []
  | token :: tokens => do
    let first ← template dialect token
    let others ← templates dialect tokens
    .ok (first :: others)

end

/-- The emitted text of one token. -/
def emit (dialect : Dialect) (token : Token) : Except Error String := do
  let text ← template dialect token
  .ok (text ++ "\n")

mutual

/-- How many statements a token is emitted as. -/
def statementCount : Token → Nat
  | ⟨kind, _, _, _, body?, _⟩ =>
    match kind with
    | .reduced =>
      bodyStatementCount body? + if loopDivisor { kind, body? } = 0 then 0 else 1
    | .addMove => 2
    | _ => 1

/-- Statements of the body of a reduced loop, without that of its count. -/
def bodyStatementCount : Option (List Token) → Nat
  | none => 0
  | some tokens => totalStatements tokens

/-- Statements of a stream. -/
def totalStatements : List Token → Nat
  | [] => 0
  | token :: tokens => statementCount token + totalStatements tokens

end
end Token

/-- Emitted text and the loop depth after it. -/
structure Emission where
  text : String := ""
  depth : Int := 0

/-- Emit one more token. Both markers of a loop stand outside of it. -/
def Emission.add (dialect : Dialect) (emission : Emission) (token : Token) : Except Error Emission := do
  let depth := if token.kind = .loopClose then emission.depth - 1 else emission.depth
  let text ← token.emit dialect
  .ok {
    text := emission.text ++ Text.nestBy depth.toNat text
    depth := if token.kind = .loopOpen then depth + 1 else depth }

/-- The statements of a stream. -/
def emitStatements (dialect : Dialect) (tokens : List Token) : Except Error String := do
  let emission ← tokens.foldlM (Emission.add dialect) {}
  .ok emission.text

/-- The whole program of a stream that reads the given numbers first. -/
def emitProgram (dialect : Dialect) (numbers : List Int) (tokens : List Token) : Except Error String := do
  let statements ← emitStatements dialect tokens
  .ok (Script.function numbers statements)

end TapeScript
