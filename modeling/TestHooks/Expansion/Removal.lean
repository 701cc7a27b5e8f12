import TestHooks.Text.Blank

/-!
# Removing spans of text

A span that stands alone on its lines goes with them; any other goes with the spaces and tabs after it. Spans are
removed from the last to the first, so that removing one moves none of those still to come.
-/

namespace TestHooks.Expansion

open TestHooks.Text

/-- The characters from `start` on and before `stop`. -/
structure Span where
  start : Nat
  stop : Nat
  deriving DecidableEq, Repr

/-- The text after the last line break. -/
def lastLine (cs : List Char) : List Char :=
  (cs.reverse.takeWhile (· != '\n')).reverse

/-- The text before the first line break. -/
def firstLine (cs : List Char) : List Char :=
  cs.takeWhile (· != '\n')

def isSpaceOrTab (c : Char) : Bool := c == ' ' || c == '\t'

/-- What is kept of the texts before and after a removed span. -/
def closeGap (before after : List Char) : List Char :=
  let lead := lastLine before
  let trail := firstLine after
  if lead.all isBlank && trail.all isBlank then
    before.take (before.length - lead.length) ++ after.drop (trail.length + 1)
  else before ++ after.dropWhile isSpaceOrTab

def removeSpan (code : List Char) (span : Span) : List Char :=
  closeGap (code.take span.start) (code.drop span.stop)

/-- The text without the spans. -/
def removeSpans (code : List Char) (spans : List Span) : List Char :=
  (spans.mergeSort fun a b => b.start ≤ a.start).foldl removeSpan code

theorem removeSpans_nil (code : List Char) : removeSpans code [] = code := by
  simp [removeSpans]

end TestHooks.Expansion
