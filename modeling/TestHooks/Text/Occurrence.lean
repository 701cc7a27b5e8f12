/-!
# Occurrences in a text

A word occurs in a text if the text has it in one piece.
-/

namespace TestHooks.Text

/-- True if `word` stands in the text in one piece. -/
def occursIn (word : List Char) : List Char → Bool
  | [] => word.isEmpty
  | c :: cs => word.isPrefixOf (c :: cs) || occursIn word cs

theorem occursIn_iff {word cs : List Char} : occursIn word cs = true ↔ word <:+: cs := by
  induction cs with
  | nil => simp [occursIn]
  | cons c cs ih => rw [List.infix_cons_iff, ← ih, ← List.isPrefixOf_iff_prefix, occursIn, Bool.or_eq_true]

end TestHooks.Text
