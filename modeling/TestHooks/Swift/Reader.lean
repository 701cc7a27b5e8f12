import TestHooks.Reader
import TestHooks.Swift.Token

/-!
# Readers of tokens

Readers over Swift tokens, and the faults that they find.
-/

namespace TestHooks.Swift

/-- Where a fault is reported. -/
inductive Whereabouts
  | at (position : Position)
  | lastToken
  | unknown
  deriving DecidableEq, Repr

structure Fault where
  cause : Cause
  whereabouts : Whereabouts
  deriving DecidableEq, Repr

/-- The fault of a cause at a token. -/
def Token.fault (t : Token) (cause : Cause) : Fault :=
  ⟨cause, .at t.position⟩

/-- The fault as an error of the text whose last token is given. -/
def Fault.toError (last : Option Token) (f : Fault) : SyntaxError :=
  match f.whereabouts with
  | .at p => ⟨f.cause, some p⟩
  | .lastToken => ⟨f.cause, last.map Token.position⟩
  | .unknown => ⟨f.cause, none⟩

/-- A reader of tokens. -/
abbrev Reader := TestHooks.Reader Token Fault

namespace Reader

open TestHooks.Reader

variable {α : Type}

/-- Takes one token of a kind. -/
def token (kind : TokenKind) : Reader Token where
  run
    | [] => .error ⟨.unexpectedEnd, .lastToken⟩
    | t :: ts => if t.kind = kind then .ok (t, ts) else .error (t.fault (.expectedKind kind t.text))
  suffix {ts x rest} h := by
    cases ts with
    | nil => simp at h
    | cons t ts =>
      simp only at h
      split at h
      · cases h
        exact List.suffix_cons _ _
      · simp at h

theorem strict_token (kind : TokenKind) : Strict (token kind) := by
  intro ts x rest h
  cases ts with
  | nil => simp [token] at h
  | cons t ts =>
    simp only [token] at h
    split at h
    · cases h
      simp
    · simp at h

/-- Reads with `p`, and again after each comma. -/
def byCommas (p : Reader α) : Reader (List α) := do
  let first ← p
  let others ← whileNext (·.kind == .comma) fun _ => p
  pure (first :: others)

end Reader

end TestHooks.Swift
