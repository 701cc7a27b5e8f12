import TestHooks.Value

/-!
# JSON text

Reads a JSON document into a value. Besides the grammar of the standard, `NaN`, `Infinity` and `-Infinity` are
numbers; whole numbers keep all their digits. Control characters in strings, escapes of lone surrogates and
anything after the document are refused.
-/

namespace TestHooks.Json

/-! ### Scalars -/

def isBlank (c : Char) : Bool :=
  c == ' ' || c == '\t' || c == '\n' || c == '\r'

/-- The value of four hexadecimal digits. -/
def hexValue? (cs : List Char) : Option Nat :=
  if cs.length == 4 then
    cs.foldl (fun acc c => do
      let n ← acc
      if c.isDigit then some (16 * n + (c.toNat - '0'.toNat))
      else if 'a' ≤ c && c ≤ 'f' then some (16 * n + (c.toNat - 'a'.toNat + 10))
      else if 'A' ≤ c && c ≤ 'F' then some (16 * n + (c.toNat - 'A'.toNat + 10))
      else none) (some 0)
  else none

/-- The character that an escape stands for, and how many characters after the backslash it takes. A code
point beyond the basic plane is a high surrogate followed by a low one. -/
def escape? : List Char → Option (Char × Nat)
  | 'u' :: cs =>
    match hexValue? (cs.take 4) with
    | none => none
    | some n =>
      if 0xd800 ≤ n && n < 0xdc00 then
        if ['\\', 'u'].isPrefixOf (cs.drop 4) then
          match hexValue? ((cs.drop 6).take 4) with
          | some m =>
            if 0xdc00 ≤ m && m < 0xe000 then some (Char.ofNat (0x10000 + (n - 0xd800) * 0x400 + (m - 0xdc00)), 11)
            else none
          | none => none
        else none
      else if 0xdc00 ≤ n && n < 0xe000 then none
      else some (Char.ofNat n, 5)
  | 'n' :: _ => some ('\n', 1)
  | 't' :: _ => some ('\t', 1)
  | 'r' :: _ => some ('\r', 1)
  | 'b' :: _ => some ('\x08', 1)
  | 'f' :: _ => some ('\x0c', 1)
  | '"' :: _ => some ('"', 1)
  | '\\' :: _ => some ('\\', 1)
  | '/' :: _ => some ('/', 1)
  | _ => none

/-- The characters of a string after its opening quote, and how many characters were read with the closing
one, when `read` come before. -/
def stringTail (read : Nat) : List Char → Option (List Char × Nat)
  | [] => none
  | '"' :: _ => some ([], read + 1)
  | '\\' :: cs =>
    match escape? cs with
    | some (c, n) => (stringTail (read + 1 + n) (cs.drop n)).map fun (rest, length) => (c :: rest, length)
    | none => none
  | c :: cs =>
    if c.toNat < 0x20 then none
    else (stringTail (read + 1) cs).map fun (rest, length) => (c :: rest, length)
termination_by cs => cs.length
decreasing_by
  all_goals
    simp only [List.length_cons, List.length_drop]
    omega

def digitsValue (cs : List Char) : Nat :=
  cs.foldl (fun n c => 10 * n + (c.toNat - '0'.toNat)) 0

/-- Whole numbers with more digits than this are refused. -/
def maxDigits : Nat := 4300

/-- A number and its length. -/
def number? (cs : List Char) : Option (Value × Nat) :=
  let negative := cs.head? == some '-'
  let body := if negative then cs.drop 1 else cs
  let sign := if negative then 1 else 0
  if "Infinity".toList.isPrefixOf body then some (.float (.infinite negative), sign + 8)
  else
    let whole := body.takeWhile Char.isDigit
    let afterWhole := body.drop whole.length
    let fraction := if afterWhole.head? == some '.' then (afterWhole.drop 1).takeWhile Char.isDigit else []
    let pointed := afterWhole.head? == some '.'
    let afterFraction := if pointed then afterWhole.drop (1 + fraction.length) else afterWhole
    let marked := afterFraction.head? == some 'e' || afterFraction.head? == some 'E'
    let signed := (afterFraction.drop 1).head?
    let hasSign := signed == some '-' || signed == some '+'
    let power := if marked then (afterFraction.drop (if hasSign then 2 else 1)).takeWhile Char.isDigit else []
    if whole.isEmpty || (whole.head? == some '0' && whole.length != 1) then none
    else if (pointed && fraction.isEmpty) || (marked && power.isEmpty) then none
    else if !pointed && !marked then
      if maxDigits < whole.length then none
      else
        let n : Int := digitsValue whole
        some (.int (if negative then -n else n), sign + whole.length)
    else
      let p : Int := digitsValue power
      let exponent := (if signed == some '-' then -p else p) - fraction.length
      let length := sign + whole.length + (if pointed then 1 + fraction.length else 0) +
        (if marked then 1 + (if hasSign then 1 else 0) + power.length else 0)
      some (.float (.ofDecimal negative (digitsValue (whole ++ fraction)) exponent), length)

/-! ### Tokens -/

/-- A mark of punctuation or a scalar. -/
inductive Token
  | openList
  | closeList
  | openTable
  | closeTable
  | comma
  | colon
  | scalar (value : Value)
  deriving Repr

/-- The mark that a character is. -/
def mark? (c : Char) : Option Token :=
  if c = '[' then some .openList
  else if c = ']' then some .closeList
  else if c = '\x7b' then some .openTable
  else if c = '\x7d' then some .closeTable
  else if c = ',' then some .comma
  else if c = ':' then some .colon
  else none

def words : List (String × Value) :=
  [("null", .null), ("true", .bool true), ("false", .bool false), ("NaN", .float .nan)]

/-- The token at `c` before `cs`, and its length after `c`. -/
def tokenAt (c : Char) (cs : List Char) : Option (Token × Nat) :=
  match mark? c with
  | some mark => some (mark, 0)
  | none =>
    if c = '"' then (stringTail 0 cs).map fun (text, length) => (.scalar (.string (String.ofList text)), length)
    else
      match words.find? fun w => w.1.toList.isPrefixOf (c :: cs) with
      | some (word, value) => some (.scalar value, word.length - 1)
      | none => (number? (c :: cs)).map fun (value, length) => (.scalar value, length - 1)

def tokens? : List Char → Option (List Token)
  | [] => some []
  | c :: cs =>
    if isBlank c then tokens? cs
    else
      match tokenAt c cs with
      | some (token, length) => (tokens? (cs.drop length)).map (token :: ·)
      | none => none
termination_by cs => cs.length
decreasing_by
  all_goals
    simp only [List.length_cons, List.length_drop]
    omega

/-! ### Documents -/

/-- A reading that uses at least one token. -/
abbrev Read (α : Type) (ts : List Token) := Option { p : α × List Token // p.2.length < ts.length }

/-- Adds what was read before to the front. -/
def Read.after {α β : Type} {ts rest : List Token} (f : α → β) (h : rest.length < ts.length) :
    Read α rest → Read β ts
  | some ⟨(x, left), hl⟩ => some ⟨(f x, left), Nat.lt_trans hl h⟩
  | none => none

mutual

/-- One value; `room` is how many more filled lists and tables may be open. -/
def value (room : Nat) (ts : List Token) : Read Value ts :=
  match ts with
  | .scalar v :: rest => some ⟨(v, rest), Nat.lt_succ_self _⟩
  | .openList :: .closeList :: rest => some ⟨(.list [], rest), by simp only [List.length_cons]; omega⟩
  | .openList :: rest =>
    match room with
    | room + 1 => (items room rest).after Value.list (Nat.lt_succ_self _)
    | 0 => none
  | .openTable :: .closeTable :: rest => some ⟨(.table [], rest), by simp only [List.length_cons]; omega⟩
  | .openTable :: rest =>
    match room with
    | room + 1 => (entries room rest).after (fun es => .table (Value.insertAll [] es)) (Nat.lt_succ_self _)
    | 0 => none
  | _ => none
termination_by 2 * ts.length
decreasing_by
  all_goals
    simp only [List.length_cons]
    omega

/-- The rest of a list, from a value on. -/
def items (room : Nat) (ts : List Token) : Read (List Value) ts :=
  match value room ts with
  | some ⟨(v, .closeList :: rest), h⟩ => some ⟨([v], rest), Nat.lt_of_succ_lt h⟩
  | some ⟨(v, .comma :: rest), h⟩ => (items room rest).after (v :: ·) (Nat.lt_of_succ_lt h)
  | _ => none
termination_by 2 * ts.length + 1
decreasing_by
  · exact Nat.lt_succ_self _
  · simp only [List.length_cons] at h
    omega

/-- The rest of a table, from a key on. -/
def entries (room : Nat) (ts : List Token) : Read (List (String × Value)) ts :=
  match ts with
  | .scalar (.string key) :: .colon :: rest =>
    match value room rest with
    | some ⟨(v, .closeTable :: left), h⟩ =>
      some ⟨([(key, v)], left), Nat.lt_succ_of_lt (Nat.lt_succ_of_lt (Nat.lt_of_succ_lt h))⟩
    | some ⟨(v, .comma :: left), h⟩ =>
      (entries room left).after ((key, v) :: ·) (Nat.lt_succ_of_lt (Nat.lt_succ_of_lt (Nat.lt_of_succ_lt h)))
    | _ => none
  | _ => none
termination_by 2 * ts.length
decreasing_by
  · simp only [List.length_cons]
    omega
  · simp only [List.length_cons] at h ⊢
    omega

end

/-- Documents nest filled lists and tables at most this deep. -/
def maxDepth : Nat := 200

/-- The value of a document whose lists and tables nest at most `depth` deep. -/
def readWithin? (depth : Nat) (text : String) : Option Value :=
  match tokens? text.toList with
  | none => none
  | some ts =>
    match value depth ts with
    | some ⟨(v, []), _⟩ => some v
    | _ => none

/-- The value of a document. -/
def read? (text : String) : Option Value :=
  readWithin? maxDepth text

end TestHooks.Json
