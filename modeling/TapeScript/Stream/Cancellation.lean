import TapeScript.Token

/-! Cancellation: every run of increments and decrements, or of moves, becomes its net effect. -/
namespace TapeScript.Cancellation

/-- Add one single token to a stream held last first; it cancels against an opposite neighbour. -/
def push (kind inverse : TokenKind) (done : List Token) : List Token :=
  match done with
  | last :: earlier => if last.kind = inverse then earlier else .single kind :: done
  | [] => [.single kind]

/-- Add a token as often as it counts. -/
def take (done : List Token) (token : Token) : List Token :=
  if token.isFoldable then
    match token.kind.inverse with
    | .ok inverse => Nat.repeat (push token.kind inverse) token.amount.toNat done
    | .error _ => token :: done
  else token :: done

/-- The stream with single tokens of which no two neighbours cancel. Runs that become neighbours by
cancellation cancel too. -/
def normalForm (tokens : List Token) : List Token := (tokens.foldl take []).reverse

end TapeScript.Cancellation
