import TestHooks.Number.Binary64

/-!
# Dynamic values

The values that settings and documents are made of before they are checked.
-/

namespace TestHooks

/-- A value of a document. Dates and times have no use here, so nothing is kept of them. -/
inductive Value
  | null
  | bool (value : Bool)
  | int (value : Int)
  | float (value : Binary64)
  | string (value : String)
  | time
  | list (items : List Value)
  | table (entries : List (String × Value))
  deriving Repr

namespace Value

/-- The value of a key in a table. -/
def lookup (key : String) (entries : List (String × Value)) : Option Value :=
  (entries.find? (·.1 == key)).map Prod.snd

/-- The entries with the value of a key replaced, or a new entry at the end. -/
def insert (key : String) (value : Value) : List (String × Value) → List (String × Value)
  | [] => [(key, value)]
  | (k, v) :: rest => if k == key then (k, value) :: rest else (k, v) :: insert key value rest

/-- The entries with all of `added` inserted, in their order. -/
def insertAll (entries added : List (String × Value)) : List (String × Value) :=
  added.foldl (fun known e => insert e.1 e.2 known) entries

theorem lookup_insert (key other : String) (value : Value) (entries : List (String × Value)) :
    lookup other (insert key value entries) = if key = other then some value else lookup other entries := by
  induction entries with
  | nil => by_cases h : key = other <;> simp [insert, lookup, h]
  | cons e rest ih =>
    obtain ⟨k, v⟩ := e
    simp only [lookup] at ih
    by_cases hk : k = key
    · subst hk
      by_cases h : k = other <;> simp [insert, lookup, h]
    · by_cases h : k = other
      · subst h
        simp [insert, lookup, hk, Ne.symm hk]
      · simp [insert, lookup, hk, h, ih]

/-- Of several values that are inserted for a key, the last one stays. -/
theorem lookup_insertAll (key : String) (entries added : List (String × Value)) :
    lookup key (insertAll entries added) = (lookup key added.reverse).or (lookup key entries) := by
  induction added generalizing entries with
  | nil => rfl
  | cons e rest ih =>
    have hstep : insertAll entries (e :: rest) = insertAll (insert e.1 e.2 entries) rest := rfl
    rw [hstep, ih, lookup_insert]
    by_cases h : e.1 = key <;> simp [lookup, List.find?_append, h]

end Value

end TestHooks
