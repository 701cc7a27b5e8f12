import TestHooks.Number.Shortest
import TestHooks.Text.Lines
import TestHooks.Text.Printable
import TestHooks.Value

/-!
# Values as text

How a value is shown inside a message. Text is shown as it is, but quoted inside lists and tables.
-/

namespace TestHooks.Value

/-! ### Numbers -/

/-- The digits of a decimal without the zeros at their end, and the exponent of the last digit kept. -/
def trimZeros (digits : List Char) (power : Int) : List Char × Int :=
  let kept := (digits.reverse.dropWhile (· == '0')).reverse
  (kept, power + (digits.length - kept.length : Nat))

/-- A decimal with its point among its digits, for exponents near zero, or with an exponent of two digits or
more. -/
def displayDecimal (digits : List Char) (power : Int) : String :=
  let (kept, power) := trimZeros digits power
  let first : Int := power + kept.length - 1
  let zeros (n : Nat) : List Char := List.replicate n '0'
  if -4 ≤ first && first < 16 then
    if 0 ≤ power then String.ofList (kept ++ zeros power.toNat ++ ['.', '0'])
    else if 0 ≤ first then
      let whole := (first + 1).toNat
      String.ofList (kept.take whole ++ ['.'] ++ kept.drop whole)
    else String.ofList (['0', '.'] ++ zeros (-first - 1).toNat ++ kept)
  else
    let fraction := if kept.length ≤ 1 then [] else '.' :: kept.drop 1
    let size := Nat.toDigits 10 first.natAbs
    let padded := if size.length < 2 then '0' :: size else size
    String.ofList (kept.take 1 ++ fraction ++ ['e', if first < 0 then '-' else '+'] ++ padded)

def displayFloat : Binary64 → String
  | .nan => "nan"
  | .infinite negative => if negative then "-inf" else "inf"
  | .finite negative mantissa exponent =>
    let sign := if negative then "-" else ""
    if mantissa = 0 then sign ++ "0.0"
    else
      let (digits, power) := Binary64.shortest mantissa exponent
      sign ++ displayDecimal (Nat.toDigits 10 digits) power

/-! ### Text -/

/-- The last `count` hexadecimal digits of a number. -/
def hexDigits : Nat → Nat → List Char
  | 0, _ => []
  | count + 1, n => hexDigits count (n / 16) ++ [Nat.digitChar (n % 16)]

/-- A character by its code, in as few of two, four or eight digits as hold it. -/
def escapedCode (c : Char) : List Char :=
  if c.toNat < 0x100 then '\\' :: 'x' :: hexDigits 2 c.toNat
  else if c.toNat < 0x10000 then '\\' :: 'u' :: hexDigits 4 c.toNat
  else '\\' :: 'U' :: hexDigits 8 c.toNat

theorem length_hexDigits (count n : Nat) : (hexDigits count n).length = count := by
  induction count generalizing n with
  | zero => rfl
  | succ count ih => rw [hexDigits, List.length_append, ih, List.length_singleton]

/-- A character between quotes. -/
def quotedChar (quote c : Char) : List Char :=
  if c = quote || c = '\\' then ['\\', c]
  else if c = '\n' then ['\\', 'n']
  else if c = '\r' then ['\\', 'r']
  else if c = '\t' then ['\\', 't']
  else if Text.isPrintable c then [c]
  else escapedCode c

/-- The text in single quotes, or in double quotes if it holds single ones only. -/
def quoted (s : String) : String :=
  let cs := s.toList
  let quote := if cs.contains '\'' && !cs.contains '"' then '"' else '\''
  String.ofList (quote :: cs.flatMap (quotedChar quote) ++ [quote])

/-! ### Values -/

mutual

/-- A value inside a list or a table. -/
def displayInside : Value → String
  | .null => "None"
  | .bool b => if b then "True" else "False"
  | .int n => toString n
  | .float x => displayFloat x
  | .string s => quoted s
  | .time => ""
  | .list items => "[" ++ Text.joinTexts ", " (displayItems items) ++ "]"
  | .table entries => "\x7b" ++ Text.joinTexts ", " (displayEntries entries) ++ "\x7d"

def displayItems : List Value → List String
  | [] => []
  | v :: vs => displayInside v :: displayItems vs

def displayEntries : List (String × Value) → List String
  | [] => []
  | (key, v) :: rest => (quoted key ++ ": " ++ displayInside v) :: displayEntries rest

end

def display : Value → String
  | .string s => s
  | v => displayInside v

end TestHooks.Value
