/-!
# Lines

Texts cut at a separator and put together again. Cutting gives at least one piece, and joining the pieces gives
the text back (`joinWith_splitAt`).
-/

namespace TestHooks.Text

/-- The pieces of a text between the separators. -/
def splitAt (sep : Char) : List Char → List (List Char)
  | [] => [[]]
  | c :: cs =>
    if c = sep then [] :: splitAt sep cs
    else
      match splitAt sep cs with
      | [] => [[c]]
      | piece :: pieces => (c :: piece) :: pieces

/-- The pieces with a separator between each two. -/
def joinWith (sep : List Char) : List (List Char) → List Char
  | [] => []
  | [piece] => piece
  | piece :: next :: pieces => piece ++ sep ++ joinWith sep (next :: pieces)

theorem splitAt_ne_nil (sep : Char) (cs : List Char) : splitAt sep cs ≠ [] := by
  cases cs with
  | nil => simp [splitAt]
  | cons c cs =>
    rw [splitAt]
    split
    · simp
    · split <;> simp

theorem joinWith_cons_head (sep : List Char) (c : Char) (piece : List Char) (pieces : List (List Char)) :
    joinWith sep ((c :: piece) :: pieces) = c :: joinWith sep (piece :: pieces) := by
  cases pieces <;> simp [joinWith]

theorem joinWith_splitAt (sep : Char) (cs : List Char) : joinWith [sep] (splitAt sep cs) = cs := by
  induction cs with
  | nil => rfl
  | cons c cs ih =>
    rw [splitAt]
    split
    · next h =>
      obtain ⟨piece, pieces, hp⟩ := List.exists_cons_of_ne_nil (splitAt_ne_nil sep cs)
      rw [hp] at ih ⊢
      simp only [joinWith, List.nil_append, List.singleton_append]
      rw [ih, h]
    · split
      · next hp => exact absurd hp (splitAt_ne_nil sep cs)
      · next piece pieces hp =>
        rw [hp] at ih
        rw [joinWith_cons_head, ih]

/-- The lines of a text. -/
def lines (s : String) : List String :=
  (splitAt '\n' s.toList).map String.ofList

/-- The texts with a separator between each two. -/
def joinTexts (sep : String) (texts : List String) : String :=
  String.ofList (joinWith sep.toList (texts.map String.toList))

/-- The lines put together, without a line break at the end. -/
def unlines (texts : List String) : String :=
  joinTexts "\n" texts

/-- The characters with one line feed for each carriage return, and for each pair of a carriage return and a line
feed. -/
def unifyLineEnds : List Char → List Char
  | '\r' :: '\n' :: cs => '\n' :: unifyLineEnds cs
  | '\r' :: cs => '\n' :: unifyLineEnds cs
  | c :: cs => c :: unifyLineEnds cs
  | [] => []

/-- The text with a line feed at the end of each line. -/
def readLines (s : String) : String :=
  String.ofList (unifyLineEnds s.toList)

theorem return_not_mem_unifyLineEnds (cs : List Char) : '\r' ∉ unifyLineEnds cs := by
  fun_induction unifyLineEnds cs with
  | case1 cs ih => simpa using ih
  | case2 cs _ ih => simpa using ih
  | case3 c cs _ h ih =>
    have hc : c ≠ '\r' := fun hc => h hc
    simpa [hc.symm] using ih
  | case4 => simp

theorem unlines_lines (s : String) : unlines (lines s) = s := by
  simp [unlines, joinTexts, lines, Function.comp_def, joinWith_splitAt]

end TestHooks.Text
