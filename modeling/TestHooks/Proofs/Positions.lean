import Mathlib.Data.List.DropRight
import TestHooks.Proofs.Locations

/-!
# Positions of tokens

The line of a character is told by the line breaks before it, and its column by the characters since the last of them
(`position_of_text`). Tokens stand at the positions of their first characters and are marked where a line break parts them
from the tokens before, and a failure points at the beginning of what cannot be read (`positions_are_exact`).
-/

namespace TestHooks.Swift

open TestHooks.Text

/-! ### Lines and columns -/

/-- The line of the character that has `n` others before it. -/
def lineAt (cs : List Char) (n : Nat) : Nat :=
  1 + (cs.take n).count '\n'

/-- The column of the character that has `n` others before it, counted from the last line break. -/
def columnAt (cs : List Char) (n : Nat) : Nat :=
  1 + ((cs.take n).rtakeWhile (· != '\n')).length

/-- A text leads to the line after its last line break, and over the characters behind that. -/
theorem position_of_text (cs : List Char) :
    (Place.origin.advance cs).toPosition = ⟨1 + cs.count '\n', 1 + (cs.rtakeWhile (· != '\n')).length⟩ := by
  induction cs using List.reverseRecOn with
  | nil => rfl
  | append_singleton cs c ih =>
    have hline := congrArg Position.line ih
    have hcolumn := congrArg Position.column ih
    rw [Place.advance_append, Place.advance_cons, Place.advance_nil, List.count_append, List.rtakeWhile_concat]
    unfold Place.next
    by_cases hc : c = '\n'
    · subst hc
      simp [hline, Nat.add_assoc]
    · simp [hc, hline, hcolumn, Nat.add_assoc]

theorem positionAt_eq (text : String) (n : Nat) :
    positionAt text n = ⟨lineAt text.toList n, columnAt text.toList n⟩ :=
  position_of_text _

/-! ### Gaps before tokens -/

/-- Where the last of the tokens ends, or the beginning of the text. -/
def Token.endOf (ts : List Token) : Nat :=
  (ts.getLast?.map Token.stop).getD 0

section

variable {cs : List Char} {ts before after : List Token} {t : Token}

/-- Tokens and their gaps reach up to the end of the last of them. -/
theorem Token.Standing.length_before (h : Token.Standing cs ts) (ht : ts = before ++ after) :
    (Token.written before).length = Token.endOf before := by
  cases before using List.reverseRecOn with
  | nil => rfl
  | append_singleton before t =>
    have hstart := h.offset (show ts = before ++ t :: after by rw [ht, List.append_assoc]; rfl)
    rw [Token.endOf, List.getLast?_append, List.getLast?_singleton, Option.some_or, Option.map_some, Option.getD_some,
      Token.stop, hstart, Token.written_append, Token.written_cons, ← String.length_toList]
    simp [Token.written, Nat.add_assoc]

/-- The gap of a token is the text between it and the token before. -/
theorem Token.Standing.gap_between (h : Token.Standing cs ts) (ht : ts = before ++ t :: after) :
    charsBetween cs (Token.endOf before) t.start.offset = t.gap.toList := by
  obtain ⟨rest, hw⟩ := h.isWritten
  have hsplit : cs = Token.written before ++ (t.gap.toList ++ (t.text.toList ++ (Token.written after ++ rest))) := by
    rw [← hw, ht, Token.written_append, Token.written_cons]
    simp only [List.append_assoc]
  rw [← h.length_before ht, h.offset ht, hsplit, charsBetween_append]

theorem Token.Standing.newlineBefore_iff (h : Token.Standing cs ts) (ht : ts = before ++ t :: after) :
    t.newlineBefore = true ↔ '\n' ∈ charsBetween cs (Token.endOf before) t.start.offset := by
  rw [h.gap_between ht, Token.newlineBefore, List.contains_iff_mem]

end

/-! ### What cannot be read -/

/-- What stands at the beginning of a text that no element can be read from: a string literal or a comment without an
end, or a character that begins nothing. -/
inductive Unreadable : List Char → LexicalFault → Prop
  | literal {hashes : Nat} {cs : List Char} {fault : LexicalFault}
    (hf : fault = .unterminatedString ∨ fault = .unterminatedInterpolation) :
    Unreadable (List.replicate hashes '#' ++ '"' :: cs) fault
  | comment {cs : List Char} : Unreadable ('/' :: '*' :: cs) .unterminatedComment
  | character {c : Char} {cs : List Char} (hb : isBlank c = false) (ho : literalOpening? (c :: cs) = none)
    (hm : startsEllipsis c cs = true ∨ TokenKind.ofPunctuation? c = none) (hw : wordLexeme? c cs = none) :
    Unreadable (c :: cs) (.illegal ((c :: cs).take 10))

theorem unterminated_of_step {frame : Frame} {c : Char} {cs : List Char} {fault : LexicalFault}
    (h : frame.step c cs = .error fault) : fault = .unterminatedString := by
  cases frame with
  | literal hashes multiline =>
    simp only [Frame.step] at h
    split at h
    · cases h
    · split at h
      · split at h <;> cases h
      · split at h
        · cases h
          rfl
        · cases h
  | interpolation depth =>
    simp only [Frame.step] at h
    split at h
    · cases h
    · split at h
      · cases h
      · split at h <;> cases h

/-- A literal that has no end fails where a literal inside it or an interpolation has none, or where it has none itself. -/
theorem unterminated_of_framesEnd {read skip : Nat} {frames : List Frame} {cs : List Char} {fault : LexicalFault}
    (h : framesEnd read frames skip cs = .error fault) :
    fault = .unterminatedString ∨ fault = .unterminatedInterpolation := by
  fun_induction framesEnd read frames skip cs with
  | case1 => cases h
  | case2 read frames skip c cs ih => exact ih h
  | case3 read frame frames c cs fault' hstep =>
    cases h
    exact .inl (unterminated_of_step hstep)
  | case4 read frame frames c cs inner skip hstep ih => exact ih h
  | case5 => cases h
  | case6 read frame frames skip =>
    cases h
    cases frame with
    | literal => exact .inl rfl
    | interpolation => exact .inr rfl

theorem unreadable_of_lexeme {c : Char} {cs : List Char} {fault : LexicalFault} (hb : isBlank c = false)
    (h : lexemeAt c cs = .error fault) : Unreadable (c :: cs) fault := by
  unfold lexemeAt at h
  split at h
  · cases h
  next hmark =>
  split at h
  · next frame length ho =>
    obtain ⟨hashes, multiline, -, -, hp, -⟩ := literal_opening_iff.1 ho
    cases hf : framesEnd 0 [frame] (length - 1) cs with
    | ok n =>
      rw [hf] at h
      cases h
    | error fault' =>
      rw [hf] at h
      cases h
      obtain ⟨rest, hrest⟩ := hp
      obtain ⟨more, hquote⟩ : ∃ more, quoteMark multiline = '"' :: more := by cases multiline <;> exact ⟨_, rfl⟩
      rw [← hrest, literalOpener, hquote, List.append_assoc, List.cons_append]
      exact .literal (unterminated_of_framesEnd hf)
  · next ho =>
    split at h
    · cases h
    next hw =>
    cases h
    refine .character hb ho ?_ hw
    split at hmark
    · next he => exact .inl he
    · exact .inr hmark

theorem unreadable_of_measure {c : Char} {cs : List Char} {fault : LexicalFault}
    (h : Element.measure c cs = .error fault) : Unreadable (c :: cs) fault := by
  unfold Element.measure at h
  split at h
  · cases h
  next hb =>
  split at h
  · cases h
  split at h
  · next hc =>
    simp only [Bool.and_eq_true, decide_eq_true_eq] at hc
    obtain ⟨more, rfl⟩ : ∃ more, cs = '*' :: more := by
      cases cs with
      | nil => cases hc.2
      | cons d more =>
        cases hc.2
        exact ⟨more, rfl⟩
    split at h
    · cases h
    · cases h
      rw [hc.1]
      exact .comment
  · cases hx : lexemeAt c cs with
    | ok found =>
      rw [hx] at h
      cases h
    | error fault' =>
      rw [hx] at h
      cases h
      exact unreadable_of_lexeme (Bool.eq_false_iff.2 hb) hx

/-! ### Texts -/

/-- Every token stands at the line and the column of its first character, and is marked if and only if a line break
stands between the token before and it. A failure points at the line and the column of the first character of the literal,
the comment or the character that cannot be read; before it stand the tokens, and nothing but gaps around them. -/
theorem positions_are_exact (text : String) :
    (∀ before t after, (Tokens.ofText text).tokens = before ++ t :: after →
      charsBetween text.toList t.start.offset t.stop = t.text.toList ∧
        t.start.line = lineAt text.toList t.start.offset ∧ t.start.column = columnAt text.toList t.start.offset ∧
        (t.newlineBefore = true ↔ '\n' ∈ charsBetween text.toList (Token.endOf before) t.start.offset)) ∧
      ∀ e, (Tokens.ofText text).failure = some e → ∃ n fault,
        e = ⟨.lexical fault, some ⟨lineAt text.toList n, columnAt text.toList n⟩⟩ ∧
          Unreadable (text.toList.drop n) fault ∧ Tiled text.toList n 0 (Tokens.ofText text).tokens := by
  have hstanding := Token.standing_ofText text
  obtain ⟨htiled, -, -, hfailure⟩ := tokens_tile text
  constructor
  · intro before t after ht
    have hmem : t ∈ (Tokens.ofText text).tokens := by
      rw [ht]
      exact List.mem_append_right _ List.mem_cons_self
    have hposition := (position_of_mem hmem).trans (positionAt_eq text t.start.offset)
    refine ⟨?_, congrArg Position.line hposition, congrArg Position.column hposition, hstanding.newlineBefore_iff ht⟩
    obtain ⟨rest, hrest⟩ := hstanding.drop_start ht
    rw [charsBetween, List.drop_take, ← hrest, Token.stop, Nat.add_sub_cancel_left, ← String.length_toList, List.take_left]
  · intro e he
    rcases hfailure with ⟨hnone, -⟩ | ⟨c, more, fault, hdrop, hmeasure, hsome⟩
    · rw [hnone] at he
      cases he
    · rw [hsome, Option.some.injEq, positionAt_eq] at he
      exact ⟨reachOf text, fault, he.symm, hdrop ▸ unreadable_of_measure hmeasure, htiled⟩

/-- A comment and a literal of two lines each, and a literal with another in its interpolation that does not end. -/
def unfinishedText : String := "/*\n*/ a = \"\"\"\n\"\"\" b\n \"\\(f(\"c)"

/-- The token behind the literal of two lines stands on the third line, and the failure inside the interpolation points at
the beginning of the outer literal. -/
theorem unfinishedText_positions :
    (∃ before t after, (Tokens.ofText unfinishedText).tokens = before ++ t :: after ∧ t.text = "b" ∧
      t.start.line = lineAt unfinishedText.toList t.start.offset ∧ t.position = ⟨3, 5⟩) ∧
      ∃ n fault, (⟨.lexical .unterminatedString, some ⟨4, 2⟩⟩ : SyntaxError) =
          ⟨.lexical fault, some ⟨lineAt unfinishedText.toList n, columnAt unfinishedText.toList n⟩⟩ ∧
        Unreadable (unfinishedText.toList.drop n) fault ∧
          Tiled unfinishedText.toList n 0 (Tokens.ofText unfinishedText).tokens := by
  have hsplit : (Tokens.ofText unfinishedText).tokens = (Tokens.ofText unfinishedText).tokens.take 3 ++
      ⟨.identifier, "b", " ", ⟨⟨3, 5⟩, 18⟩⟩ :: [] := by
    decide +kernel
  have hfailure : (Tokens.ofText unfinishedText).failure = some ⟨.lexical .unterminatedString, some ⟨4, 2⟩⟩ := by
    decide +kernel
  exact ⟨⟨_, _, _, hsplit, rfl, ((positions_are_exact unfinishedText).1 _ _ _ hsplit).2.1, rfl⟩,
    (positions_are_exact unfinishedText).2 _ hfailure⟩

end TestHooks.Swift
