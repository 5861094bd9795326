import TapeScript.Token

/-! Readable text of a stream: tokens apart by a space, counts before the symbol, as in `3+ 12>`. -/
namespace TapeScript

/-- The symbol of a source-level token. -/
def TokenKind.symbol? : TokenKind → Option String
  | inc => some "+"
  | dec => some "-"
  | right => some ">"
  | left => some "<"
  | loopOpen => some "["
  | loopClose => some "]"
  | output => some "."
  | input => some ","
  | clear => some "[-]"
  | scanRight => some "[>]"
  | scanLeft => some "[<]"
  | _ => none

namespace Token

/-- A number that always shows its sign. -/
def withSign (n : Int) : String := if n < 0 then toString n else "+" ++ toString n

def joined (texts : List String) : String := " ".intercalate texts

mutual

/-- Text of one token. -/
def text : Token → Except Error String
  | ⟨kind, amount, offset, divisor?, body?, symbol?⟩ =>
    match kind.symbol? with
    | some symbol => .ok (if amount = 1 then symbol else toString amount ++ symbol)
    | none =>
      match kind with
      | .extension =>
        match symbol? with
        | none | some "" => .ok "?"
        | some symbol => .ok symbol
      | .addAt => .ok s!"@{offset}{withSign amount}"
      | .clearAt => .ok s!"@{offset}=0"
      | .addMove => .ok (withSign amount ++ if 0 < offset then ">" else "<")
      | .moveAdd => .ok s!"{offset}{withSign amount}"
      | .moveClear => .ok s!"{offset}=0"
      | .reduced => do
        let statements ← bodyTexts body?
        .ok ("\x7b" ++ joined statements ++ "\x7d")
      | .mulAdd =>
        let divisor := (divisor?.map toString).getD "undefined"
        .ok s!"@{offset}+={amount}/{divisor}"
      | .condAdd => .ok s!"@{offset}?{withSign amount}"
      | .condClear => .ok s!"@{offset}?=0"
      | .unknown code => .error (.unknownKind code)
      | _ => .error .assertion

/-- Texts of the statements of a reduced loop. -/
def bodyTexts : Option (List Token) → Except Error (List String)
  | none => .ok []
  | some tokens => texts tokens

/-- Texts of the tokens of a stream. -/
def texts : List Token → Except Error (List String)
  | [] => .ok []
  | token :: tokens => do
    let first ← text token
    let others ← texts tokens
    .ok (first :: others)

end
end Token

/-- The text of a stream. -/
def streamText (tokens : List Token) : Except Error String := do
  let texts ← Token.texts tokens
  .ok (Token.joined texts)

end TapeScript
