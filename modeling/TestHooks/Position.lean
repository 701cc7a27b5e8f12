/-!
# Positions in text

A position is a line and a column, a place is a position with the number of characters before it. Only a
line feed ends a line.
-/

namespace TestHooks

/-- A line and a column, both counted from 1. -/
structure Position where
  line : Nat
  column : Nat
  deriving DecidableEq, Repr

/-- A position together with the number of characters before it. -/
structure Place extends Position where
  offset : Nat
  deriving DecidableEq, Repr

namespace Place

/-- The beginning of a text. -/
def origin : Place := ⟨⟨1, 1⟩, 0⟩

/-- The place after the character `c` at this place. -/
def next (p : Place) (c : Char) : Place :=
  if c = '\n' then ⟨⟨p.line + 1, 1⟩, p.offset + 1⟩ else ⟨⟨p.line, p.column + 1⟩, p.offset + 1⟩

/-- The place after a text at this place. -/
def advance (p : Place) (cs : List Char) : Place :=
  cs.foldl next p

@[simp] theorem advance_nil (p : Place) : p.advance [] = p := rfl

@[simp] theorem advance_cons (p : Place) (c : Char) (cs : List Char) :
    p.advance (c :: cs) = (p.next c).advance cs := rfl

@[simp] theorem advance_append (p : Place) (cs ds : List Char) :
    p.advance (cs ++ ds) = (p.advance cs).advance ds :=
  List.foldl_append

theorem offset_next (p : Place) (c : Char) : (p.next c).offset = p.offset + 1 := by
  unfold next
  split <;> rfl

@[simp] theorem offset_advance (p : Place) (cs : List Char) :
    (p.advance cs).offset = p.offset + cs.length := by
  induction cs generalizing p with
  | nil => rfl
  | cons c cs ih =>
    rw [advance_cons, ih, offset_next, List.length_cons]
    omega

end Place

end TestHooks
