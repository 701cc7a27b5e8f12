import TestHooks.Value

/-!
# Scalars of TOML

Strings, numbers, dates and truth values of a TOML document. Each function says what stands at the head of a text
and how many characters it takes.
-/

namespace TestHooks.Toml

/-! ### Characters -/

def isBlank (c : Char) : Bool := c == ' ' || c == '\t'

def isBlankOrNewline (c : Char) : Bool := isBlank c || c == '\n'

/-- Control characters that may stand neither in comments nor in strings of one line. -/
def isControl (c : Char) : Bool :=
  (c.toNat < 32 && c != '\t') || c.toNat == 127

/-- Control characters that may not stand in strings of several lines. -/
def isControlInLines (c : Char) : Bool :=
  isControl c && c != '\n'

def isBareKeyChar (c : Char) : Bool :=
  c.isAlphanum || c == '-' || c == '_'

def hexDigit? (c : Char) : Option Nat :=
  if c.isDigit then some (c.toNat - '0'.toNat)
  else if 'a' ≤ c && c ≤ 'f' then some (c.toNat - 'a'.toNat + 10)
  else if 'A' ≤ c && c ≤ 'F' then some (c.toNat - 'A'.toNat + 10)
  else none

/-- The number of digits in a base that is written with digits of up to 16 kinds. -/
def valueInBase (base : Nat) (cs : List Char) : Nat :=
  cs.foldl (fun n c => base * n + (hexDigit? c).getD 0) 0

/-! ### Strings -/

/-- The character of exactly `count` hexadecimal digits. -/
def scalarOf? (count : Nat) (cs : List Char) : Option Char :=
  let digits := cs.take count
  let n := valueInBase 16 digits
  if digits.length == count && digits.all (fun c => (hexDigit? c).isSome) && n.isValidChar then some (Char.ofNat n)
  else none

/-- What an escape stands for, and how many characters it takes after the backslash. In a string of several lines
a backslash before the end of a line drops it, with the blanks of the next line. -/
def escape? (multiline : Bool) : List Char → Option (List Char × Nat)
  | [] => none
  | c :: cs =>
    if c = 'u' then (scalarOf? 4 cs).map fun d => ([d], 5)
    else if c = 'U' then (scalarOf? 8 cs).map fun d => ([d], 9)
    else if c = 'b' then some (['\x08'], 1)
    else if c = 't' then some (['\t'], 1)
    else if c = 'n' then some (['\n'], 1)
    else if c = 'f' then some (['\x0c'], 1)
    else if c = 'r' then some (['\r'], 1)
    else if c = '"' || c = '\\' then some ([c], 1)
    else if multiline && isBlankOrNewline c then
      let run := (c :: cs).takeWhile isBlankOrNewline
      if run.contains '\n' then some ([], run.length) else none
    else none

/-- The quotes beyond the three that close a string of several lines; up to two belong to the string. -/
def extraQuotes (quote : Char) (cs : List Char) : Nat :=
  min 2 (cs.takeWhile (· == quote)).length

/-- The text of a basic string after its opening quotes, and the characters read when `read` come before. -/
def basicTail (multiline : Bool) (read : Nat) : List Char → Option (List Char × Nat)
  | [] => none
  | c :: cs =>
    if c = '"' then
      if !multiline then some ([], read + 1)
      else if ['"', '"'].isPrefixOf cs then
        let extra := extraQuotes '"' (cs.drop 2)
        some (List.replicate extra '"', read + 3 + extra)
      else (basicTail multiline (read + 1) cs).map fun (rest, n) => (c :: rest, n)
    else if c = '\\' then
      match escape? multiline cs with
      | some (found, n) => (basicTail multiline (read + 1 + n) (cs.drop n)).map fun (rest, m) => (found ++ rest, m)
      | none => none
    else if (if multiline then isControlInLines c else isControl c) then none
    else (basicTail multiline (read + 1) cs).map fun (rest, n) => (c :: rest, n)
termination_by cs => cs.length
decreasing_by
  all_goals
    simp only [List.length_cons, List.length_drop]
    omega

/-- The text of a literal string of one line after its opening quote. -/
def literalTail (cs : List Char) : Option (List Char × Nat) :=
  let body := cs.takeWhile (· != '\'')
  if body.length < cs.length && !body.any isControl then some (body, body.length + 1) else none

/-- The text of a literal string of several lines after its opening quotes. -/
def literalLinesTail (read : Nat) : List Char → Option (List Char × Nat)
  | [] => none
  | c :: cs =>
    if ['\'', '\'', '\''].isPrefixOf (c :: cs) then
      let extra := extraQuotes '\'' (cs.drop 2)
      some (List.replicate extra '\'', read + 3 + extra)
    else if isControlInLines c then none
    else (literalLinesTail (read + 1) cs).map fun (rest, n) => (c :: rest, n)

/-- A string of one line. -/
def lineString? : List Char → Option (List Char × Nat)
  | '"' :: cs => (basicTail false 1 cs)
  | '\'' :: cs => (literalTail cs).map fun (found, n) => (found, n + 1)
  | _ => none

/-- A string of one or more lines. The first line break of several lines is dropped. -/
def string? (cs : List Char) : Option (List Char × Nat) :=
  let body := cs.drop 3
  let skip := if body.head? = some '\n' then 1 else 0
  if ['"', '"', '"'].isPrefixOf cs then basicTail true (3 + skip) (body.drop skip)
  else if ['\'', '\'', '\''].isPrefixOf cs then literalLinesTail (3 + skip) (body.drop skip)
  else lineString? cs

/-- A part of a key: bare characters or a string of one line. -/
def keyPart? (cs : List Char) : Option (String × Nat) :=
  let bare := cs.takeWhile isBareKeyChar
  if bare.isEmpty then (lineString? cs).map fun (found, n) => (String.ofList found, n)
  else some (String.ofList bare, bare.length)

/-! ### Numbers -/

/-- The length of a run of digits with single underscores between them, when a digit came before. -/
def moreDigits (isDigit : Char → Bool) : List Char → Nat
  | '_' :: c :: cs => if isDigit c then 2 + moreDigits isDigit cs else 0
  | c :: cs => if isDigit c then 1 + moreDigits isDigit cs else 0
  | [] => 0

/-- The length of a run of digits with single underscores between them. -/
def digitRun (isDigit : Char → Bool) : List Char → Nat
  | c :: cs => if isDigit c then 1 + moreDigits isDigit cs else 0
  | [] => 0

def withoutUnderscores (cs : List Char) : List Char := cs.filter (· != '_')

/-- A whole number in base 16, 8 or 2. -/
def radixNumber? : List Char → Option (Value × Nat)
  | '0' :: r :: cs =>
    let read (base : Nat) (isDigit : Char → Bool) : Option (Value × Nat) :=
      let n := digitRun isDigit cs
      if n = 0 then none else some (.int (valueInBase base (withoutUnderscores (cs.take n))), n + 2)
    if r = 'x' then read 16 fun c => (hexDigit? c).isSome
    else if r = 'o' then read 8 fun c => '0' ≤ c && c ≤ '7'
    else if r = 'b' then read 2 fun c => c == '0' || c == '1'
    else none
  | _ => none

/-- The length of the sign of a number. -/
def signLength : List Char → Nat
  | c :: _ => if c = '-' || c = '+' then 1 else 0
  | [] => 0

/-- The length of the fraction of a number. -/
def fractionLength : List Char → Nat
  | '.' :: cs =>
    let n := digitRun Char.isDigit cs
    if n = 0 then 0 else n + 1
  | _ => 0

/-- The length of the exponent of a number. -/
def exponentLength : List Char → Nat
  | e :: cs =>
    if e = 'e' || e = 'E' then
      let n := digitRun Char.isDigit (cs.drop (signLength cs))
      if n = 0 then 0 else 1 + signLength cs + n
    else 0
  | [] => 0

/-- A number in base ten. With a fraction or an exponent it is a float. -/
def decimalNumber? (cs : List Char) : Option (Value × Nat) :=
  let sign := signLength cs
  let negative := cs.head? == some '-'
  let body := cs.drop sign
  let wholeLength := if body.head? = some '0' then 1 else digitRun Char.isDigit body
  let fraction := fractionLength (body.drop wholeLength)
  let exponent := exponentLength (body.drop (wholeLength + fraction))
  let digits (part : List Char) : List Char := part.filter Char.isDigit
  let whole := digits (body.take wholeLength)
  if wholeLength = 0 then none
  else if fraction + exponent = 0 then
    let n : Int := valueInBase 10 whole
    some (.int (if negative then -n else n), sign + wholeLength)
  else
    let places := digits ((body.drop wholeLength).take fraction)
    let power := (body.drop (wholeLength + fraction)).take exponent
    let p : Int := valueInBase 10 (digits power)
    let scale := (if (power.drop 1).head? = some '-' then -p else p) - places.length
    some (.float (.ofDecimal negative (valueInBase 10 (whole ++ places)) scale),
      sign + wholeLength + fraction + exponent)

/-- Infinity and the value that is no number. -/
def specialFloat? (cs : List Char) : Option (Value × Nat) :=
  let sign := signLength cs
  let word := (cs.drop sign).take 3
  if word = ['i', 'n', 'f'] then some (.float (.infinite (cs.head? == some '-')), sign + 3)
  else if word = ['n', 'a', 'n'] then some (.float .nan, sign + 3)
  else none

/-! ### Dates and times -/

/-- The number of two digits. -/
def twoDigits? : List Char → Option Nat
  | a :: b :: _ => if a.isDigit && b.isDigit then some (valueInBase 10 [a, b]) else none
  | _ => none

/-- Two digits that make a number of at least `low` and at most `high`. -/
def twoDigitsIn (low high : Nat) (cs : List Char) : Bool :=
  (twoDigits? cs).any fun n => low ≤ n && n ≤ high

/-- The length of a time of day. -/
def timeLength (cs : List Char) : Nat :=
  if twoDigitsIn 0 23 cs && (cs.drop 2).head? = some ':' && twoDigitsIn 0 59 (cs.drop 3) &&
      (cs.drop 5).head? = some ':' && twoDigitsIn 0 59 (cs.drop 6) then
    let fraction := ((cs.drop 9).takeWhile Char.isDigit).length
    if (cs.drop 8).head? = some '.' && 0 < fraction then 9 + fraction else 8
  else 0

/-- The length of the offset of a time. -/
def offsetLength (cs : List Char) : Nat :=
  if cs.head? = some 'Z' || cs.head? = some 'z' then 1
  else if signLength cs = 1 && twoDigitsIn 0 23 (cs.drop 1) && (cs.drop 3).head? = some ':' &&
      twoDigitsIn 0 59 (cs.drop 4) then 6
  else 0

def isLeapYear (year : Nat) : Bool :=
  year % 4 == 0 && (year % 100 != 0 || year % 400 == 0)

def daysOfMonth (year month : Nat) : Nat :=
  if month = 2 then if isLeapYear year then 29 else 28
  else if [4, 6, 9, 11].contains month then 30
  else 31

/-- True for the form of a date, with a month and a day that occur. -/
def hasDateForm (cs : List Char) : Bool :=
  (cs.take 4).length == 4 && (cs.take 4).all Char.isDigit && (cs.drop 4).head? = some '-' &&
    twoDigitsIn 1 12 (cs.drop 5) && (cs.drop 7).head? = some '-' && twoDigitsIn 1 31 (cs.drop 8)

/-- True if a text in the form of a date is one of the calendar. -/
def isCalendarDate (cs : List Char) : Bool :=
  let year := valueInBase 10 (cs.take 4)
  0 < year && ((twoDigits? (cs.drop 8)).getD 0) ≤ daysOfMonth year ((twoDigits? (cs.drop 5)).getD 0)

/-- The length of a date with the time that may follow it. -/
def dateTimeLength (cs : List Char) : Nat :=
  let separated := (cs.drop 10).head?.any fun c => c == 'T' || c == 't' || c == ' '
  let time := if separated then timeLength (cs.drop 11) else 0
  if time = 0 then 10 else 11 + time + offsetLength (cs.drop (11 + time))

/-! ### Scalars -/

/-- The scalar at the head of a text. -/
def scalar? (cs : List Char) : Option (Value × Nat) :=
  if cs.head? = some '"' || cs.head? = some '\'' then
    (string? cs).map fun (found, n) => (.string (String.ofList found), n)
  else if "true".toList.isPrefixOf cs then some (.bool true, 4)
  else if "false".toList.isPrefixOf cs then some (.bool false, 5)
  else if hasDateForm cs then if isCalendarDate cs then some (.time, dateTimeLength cs) else none
  else if 0 < timeLength cs then some (.time, timeLength cs)
  else
    match radixNumber? cs with
    | some found => some found
    | none =>
      match decimalNumber? cs with
      | some found => some found
      | none => specialFloat? cs

end TestHooks.Toml
