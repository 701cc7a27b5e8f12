import TestHooks.Settings.OfValues

/-!
# Settings from `key=value` items

The type of a value is guessed from its text: a truth value, a list if there is a comma, a whole number, or else
the text itself.
-/

namespace TestHooks.Settings

open TestHooks.Text

/-- Whole numbers with more digits than this stay text. -/
def maxDigits : Nat := 4300

/-- The value of a whole number in the digits of any script. -/
def wholeNumber? (cs : List Char) : Option Int :=
  if maxDigits < (cs.filter isDecimalDigit).length then none else signedDigits? digitValue? cs

/-- The value that a text without blanks around it is taken for. -/
def guess (s : String) : Value :=
  if Value.lowerAscii s = "true" then .bool true
  else if Value.lowerAscii s = "false" then .bool false
  else if s.toList.contains ',' then .list ((words s).map .string)
  else
    match wholeNumber? s.toList with
    | some n => .int n
    | none => .string s

/-- The key and the value of an item, if it has an equals sign. -/
def item? (item : String) : Option (String × Value) :=
  let key := item.toList.takeWhile (· != '=')
  match item.toList.drop key.length with
  | [] => none
  | _ :: value => some (trim (String.ofList key), guess (trim (String.ofList value)))

/-- The message on an item without an equals sign. -/
def invalidItemMessage (item : String) : String :=
  "Invalid config format: '" ++ item ++ "'. Expected 'key=value'."

/-- The entries of items, added to those before. A key that comes again takes the new value. -/
def addItems (entries : List (String × Value)) : List String → Except String (List (String × Value))
  | [] => .ok entries
  | item :: items =>
    match item? item with
    | some (key, value) => addItems (Value.insert key value entries) items
    | none => .error (invalidItemMessage item)

/-- The entries of items, or a message on the first that is none. -/
def ofItems (items : List String) : Except String (List (String × Value)) :=
  addItems [] items

end TestHooks.Settings
