import TapeScript.Token

/-! Run lengths: equal single tokens in a row share tokens of up to `maxCount` repetitions. -/
namespace TapeScript.RunLength

def maxCount : Nat := 99

/-- So many repetitions of a token, in full tokens and one for the rest. -/
def ofRun (kind : TokenKind) (length : Nat) : List Token :=
  List.replicate (length / maxCount) (.counted kind maxCount) ++
    if length % maxCount = 0 then [] else [.counted kind (length % maxCount : Nat)]

/-- A run of single tokens under way: their kind and number. -/
abbrev Run := Option (TokenKind × Nat)

def Run.tokens : Run → List Token
  | none => []
  | some (kind, length) => ofRun kind length

/-- Compress the rest of a stream after the run under way. -/
def compressAfter (run : Run) : List Token → List Token
  | [] => run.tokens
  | token :: tokens =>
    if token.isFoldable && token.amount == 1 then
      match run with
      | some (kind, length) =>
        if kind = token.kind then compressAfter (some (kind, length + 1)) tokens
        else ofRun kind length ++ compressAfter (some (token.kind, 1)) tokens
      | none => compressAfter (some (token.kind, 1)) tokens
    else run.tokens ++ token :: compressAfter none tokens

def compress (tokens : List Token) : List Token := compressAfter none tokens

/-- The tokens of a stream, each repeated as often as it counts. -/
def expand (tokens : List Token) : List Token :=
  tokens.flatMap fun token =>
    if token.isFoldable then List.replicate token.amount.toNat (.single token.kind) else [token]

end TapeScript.RunLength
