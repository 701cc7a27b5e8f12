import TestHooks.Text.DecimalDigit

/-!
# Whole numbers as text

A sign, and digits in groups that single underscores separate. Which characters are digits is a parameter.
-/

namespace TestHooks.Text

/-- The value of an ASCII digit. -/
def asciiDigit? (c : Char) : Option Nat :=
  if c.isDigit then some (c.toNat - '0'.toNat) else none

/-- The number that the digits make after those that made `n`. -/
def groupedDigitsFrom (digit? : Char → Option Nat) (n : Nat) : List Char → Option Nat
  | [] => some n
  | '_' :: c :: cs => (digit? c).bind fun d => groupedDigitsFrom digit? (10 * n + d) cs
  | c :: cs => (digit? c).bind fun d => groupedDigitsFrom digit? (10 * n + d) cs

/-- The number of a text of digits, with single underscores between digits allowed. -/
def groupedDigits? (digit? : Char → Option Nat) : List Char → Option Nat
  | [] => none
  | c :: cs => (digit? c).bind fun d => groupedDigitsFrom digit? d cs

/-- The number of a text with an optional sign. -/
def signedDigits? (digit? : Char → Option Nat) : List Char → Option Int
  | '-' :: cs => (groupedDigits? digit? cs).map fun n => -(n : Int)
  | '+' :: cs => (groupedDigits? digit? cs).map fun n => (n : Int)
  | cs => (groupedDigits? digit? cs).map fun n => (n : Int)

end TestHooks.Text
