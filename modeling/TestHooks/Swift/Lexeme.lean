import TestHooks.Text.Blank
import TestHooks.Text.Word

/-!
# Elements of Swift text

Text is a sequence of elements: runs of blanks, comments and lexemes. `Element.measure` says what stands at the
head of a text and how far it reaches, and `Cut.ofText` cuts a whole text. Nothing is lost: the elements and the
unread end together are the text (`Cut.flatten_ofText`).
-/

namespace TestHooks.Swift

open TestHooks.Text

inductive TokenKind
  | leftBrace | rightBrace | leftParen | rightParen | leftBracket | rightBracket | leftAngle | rightAngle
  | comma | colon | semicolon | dot | arrow | ellipsis
  | atWord | hashWord | identifier
  | string | number | operator
  deriving DecidableEq, Repr

/-- The name of a kind in messages. -/
def TokenKind.name : TokenKind → String
  | leftBrace => "LBRACE"
  | rightBrace => "RBRACE"
  | leftParen => "LPAREN"
  | rightParen => "RPAREN"
  | leftBracket => "LBRACKET"
  | rightBracket => "RBRACKET"
  | leftAngle => "LANGLE"
  | rightAngle => "RANGLE"
  | comma => "COMMA"
  | colon => "COLON"
  | semicolon => "SEMICOLON"
  | dot => "DOT"
  | arrow => "ARROW"
  | ellipsis => "ELLIPSIS"
  | atWord => "ATTRIBUTE"
  | hashWord => "DIRECTIVE"
  | identifier => "IDENTIFIER"
  | string => "STRING"
  | number => "NUMBER"
  | operator => "OPERATOR"

/-- The kind of a punctuation mark. -/
def TokenKind.ofPunctuation? (c : Char) : Option TokenKind :=
  if c = '\x7b' then some leftBrace
  else if c = '\x7d' then some rightBrace
  else if c = '(' then some leftParen
  else if c = ')' then some rightParen
  else if c = '[' then some leftBracket
  else if c = ']' then some rightBracket
  else if c = '<' then some leftAngle
  else if c = '>' then some rightAngle
  else if c = ',' then some comma
  else if c = ':' then some colon
  else if c = ';' then some semicolon
  else if c = '.' then some dot
  else none

/-- What an element is. -/
inductive Shape
  | blank
  | lineComment
  | blockComment
  | lexeme (kind : TokenKind)
  deriving DecidableEq, Repr

structure Element where
  shape : Shape
  text : List Char
  deriving DecidableEq, Repr

/-- Why no element can be read at some place. -/
inductive LexicalFault
  | unterminatedString
  | unterminatedInterpolation
  | unterminatedComment
  | illegal (snippet : List Char)
  deriving DecidableEq, Repr

/-! ### Block comments -/

/-- How far a block comment reaches that stands inside `depth` others, when `read` characters come before. -/
def commentEnd (read : Nat) : Nat → List Char → Option Nat
  | depth, '/' :: '*' :: cs => commentEnd (read + 2) (depth + 1) cs
  | 0, '*' :: '/' :: _ => some (read + 2)
  | depth + 1, '*' :: '/' :: cs => commentEnd (read + 2) depth cs
  | depth, _ :: cs => commentEnd (read + 1) depth cs
  | _, [] => none

/-! ### String literals -/

/-- A place inside a string literal: in the literal itself, or in parentheses of an interpolation. -/
inductive Frame
  | literal (hashes : Nat) (multiline : Bool)
  | interpolation (depth : Nat)
  deriving DecidableEq, Repr

/-- The fault of a text that ends inside the frame. -/
def Frame.unterminated : Frame → LexicalFault
  | literal _ _ => .unterminatedString
  | interpolation _ => .unterminatedInterpolation

def quoteMark (multiline : Bool) : List Char :=
  if multiline then ['"', '"', '"'] else ['"']

def literalCloser (hashes : Nat) (multiline : Bool) : List Char :=
  quoteMark multiline ++ List.replicate hashes '#'

def literalEscape (hashes : Nat) : List Char :=
  '\\' :: List.replicate hashes '#'

/-- The literal that a text opens, with the length of its opening hashes and quotes. -/
def literalOpening? (cs : List Char) : Option (Frame × Nat) :=
  let hashes := (cs.takeWhile (· == '#')).length
  let body := cs.drop hashes
  if body.head? = some '"' then
    let multiline := (quoteMark true).isPrefixOf body
    some (.literal hashes multiline, hashes + (quoteMark multiline).length)
  else none

/-- What replaces the frame at the character `c` before `cs`, and how many characters of `cs` go with it. -/
def Frame.step : Frame → Char → List Char → Except LexicalFault (List Frame × Nat)
  | frame@(literal hashes multiline), c, cs =>
    let closer := literalCloser hashes multiline
    let escape := literalEscape hashes
    if closer.isPrefixOf (c :: cs) then .ok ([], closer.length - 1)
    else if escape.isPrefixOf (c :: cs) then
      if ((c :: cs).drop escape.length).head? = some '(' then .ok ([.interpolation 0, frame], escape.length)
      else .ok ([frame], escape.length)
    else if c = '\n' && !multiline then .error .unterminatedString
    else .ok ([frame], 0)
  | frame@(interpolation depth), c, cs =>
    match literalOpening? (c :: cs) with
    | some (inner, length) => .ok ([inner, frame], length - 1)
    | none =>
      if c = '(' then .ok ([.interpolation (depth + 1)], 0)
      else if c = ')' then .ok (if depth = 0 then [] else [.interpolation (depth - 1)], 0)
      else .ok ([frame], 0)

/-- How far the open frames reach, innermost first, when the next `skip` characters belong to the last step
and `read` characters come before. -/
def framesEnd (read : Nat) : List Frame → Nat → List Char → Except LexicalFault Nat
  | [], 0, _ => .ok read
  | frames, skip + 1, _ :: cs => framesEnd (read + 1) frames skip cs
  | frame :: frames, 0, c :: cs =>
    match frame.step c cs with
    | .error fault => .error fault
    | .ok (inner, skip) => framesEnd (read + 1) (inner ++ frames) skip cs
  | [], _ + 1, [] => .ok read
  | frame :: _, _, [] => .error frame.unterminated

/-! ### Other lexemes -/

def isOperatorChar (c : Char) : Bool :=
  "/=-+!*%&|^~?\\".toList.contains c

/-- The quote of escaped identifiers. -/
def backtick : Char := '\x60'

def isRadixDigit (c : Char) : Bool :=
  c.isDigit || ('a' ≤ c && c ≤ 'f') || ('A' ≤ c && c ≤ 'F') || c == '_'

def isDigitOrUnderscore (c : Char) : Bool :=
  isDecimalDigit c || c == '_'

/-- The length of a run of word characters after a word start. -/
def wordLength? : List Char → Option Nat
  | c :: cs => if isWordStart c then some (1 + (cs.takeWhile isWordChar).length) else none
  | [] => none

/-- The length of the fraction of a number. -/
def fractionLength : List Char → Nat
  | '.' :: d :: cs => if isDecimalDigit d then 2 + (cs.takeWhile isDigitOrUnderscore).length else 0
  | _ => 0

/-- The length of the exponent of a number. -/
def exponentLength : List Char → Nat
  | e :: cs =>
    if e = 'e' || e = 'E' then
      let sign := if cs.head? = some '-' || cs.head? = some '+' then 1 else 0
      let digits := ((cs.drop sign).takeWhile isDecimalDigit).length
      if digits = 0 then 0 else 1 + sign + digits
    else 0
  | [] => 0

/-- The length of a decimal number after its first digit. -/
def decimalTail (cs : List Char) : Nat :=
  let whole := (cs.takeWhile isDigitOrUnderscore).length
  let fraction := fractionLength (cs.drop whole)
  whole + fraction + exponentLength (cs.drop (whole + fraction))

/-- The length of a number after its first digit. -/
def numberTail (c : Char) (cs : List Char) : Nat :=
  match c, cs with
  | '0', r :: ds =>
    let digits := (ds.takeWhile isRadixDigit).length
    if (r = 'x' || r = 'o' || r = 'b') && 0 < digits then 1 + digits else decimalTail cs
  | _, _ => decimalTail cs

/-- The lexeme at `c` before `cs` that is neither a string nor a mark, and its length after `c`. -/
def wordLexeme? (c : Char) (cs : List Char) : Option (TokenKind × Nat) :=
  let escaped := (cs.takeWhile fun d => d != backtick && d != '\n').length
  let word := (cs.takeWhile isWordChar).length
  if c = '@' && (wordLength? cs).isSome then some (.atWord, (wordLength? cs).getD 0)
  else if c = '#' && (wordLength? cs).isSome then some (.hashWord, (wordLength? cs).getD 0)
  else if c = backtick && 0 < escaped && (cs.drop escaped).head? = some backtick then
    some (.identifier, escaped + 1)
  else if c = '$' && 0 < word then some (.identifier, word)
  else if isWordStart c then some (.identifier, word)
  else if isDecimalDigit c then some (.number, numberTail c cs)
  else if c = '-' && cs.head? = some '>' then some (.arrow, 1)
  else if c = '.' && cs.head? = some '.' && (cs.drop 1).head?.any (fun d => d == '.' || d == '<') then
    some (.ellipsis, 2)
  else if isOperatorChar c then some (.operator, (cs.takeWhile isOperatorChar).length)
  else none

/-- True where two dots and a third dot or a left angle begin. -/
def startsEllipsis (c : Char) (cs : List Char) : Bool :=
  ['.', '.', '.'].isPrefixOf (c :: cs) || ['.', '.', '<'].isPrefixOf (c :: cs)

/-- The lexeme at `c` before `cs`, and its length after `c`. -/
def lexemeAt (c : Char) (cs : List Char) : Except LexicalFault (TokenKind × Nat) :=
  match if startsEllipsis c cs then none else TokenKind.ofPunctuation? c with
  | some kind => .ok (kind, 0)
  | none =>
    match literalOpening? (c :: cs) with
    | some (frame, length) => (framesEnd 0 [frame] (length - 1) cs).map (TokenKind.string, ·)
    | none =>
      match wordLexeme? c cs with
      | some found => .ok found
      | none => .error (.illegal ((c :: cs).take 10))

/-! ### Cutting -/

/-- What stands at the head `c` of a text, and how many characters of the rest belong to it. -/
def Element.measure (c : Char) (cs : List Char) : Except LexicalFault (Shape × Nat) :=
  if isBlank c then .ok (.blank, (cs.takeWhile isBlank).length)
  else if c = '/' && cs.head? = some '/' then .ok (.lineComment, (cs.takeWhile (· != '\n')).length)
  else if c = '/' && cs.head? = some '*' then
    match commentEnd 1 0 (cs.drop 1) with
    | some length => .ok (.blockComment, length)
    | none => .error .unterminatedComment
  else (lexemeAt c cs).map fun (kind, length) => (.lexeme kind, length)

/-- A text cut into elements, up to its end or to the place where no element can be read. -/
structure Cut where
  elements : List Element
  unread : List Char
  fault : Option LexicalFault
  deriving DecidableEq, Repr

def Cut.ofText : List Char → Cut
  | [] => ⟨[], [], none⟩
  | c :: cs =>
    match Element.measure c cs with
    | .error fault => ⟨[], c :: cs, some fault⟩
    | .ok (shape, length) =>
      let after := Cut.ofText (cs.drop length)
      { after with elements := ⟨shape, c :: cs.take length⟩ :: after.elements }
termination_by cs => cs.length
decreasing_by
  simp only [List.length_cons, List.length_drop]
  omega

/-- The text that was cut. -/
def Cut.flatten (cut : Cut) : List Char :=
  cut.elements.flatMap Element.text ++ cut.unread

@[simp] theorem Cut.flatten_ofText (cs : List Char) : (Cut.ofText cs).flatten = cs := by
  fun_induction Cut.ofText cs with
  | case1 => rfl
  | case2 c cs fault h => rfl
  | case3 c cs shape length h after ih =>
    simp only [Cut.flatten, List.flatMap_cons, List.append_assoc] at ih ⊢
    rw [ih, List.cons_append, List.take_append_drop]

theorem Cut.text_ne_nil {cs : List Char} {e : Element} (h : e ∈ (Cut.ofText cs).elements) : e.text ≠ [] := by
  fun_induction Cut.ofText cs with
  | case1 => simp at h
  | case2 => simp at h
  | case3 c cs shape length _ after ih =>
    rcases List.mem_cons.1 h with rfl | h
    · simp
    · exact ih h

/-- The cut stops before the end of the text only where no element can be read. -/
theorem Cut.unread_eq_nil_iff (cs : List Char) : (Cut.ofText cs).unread = [] ↔ (Cut.ofText cs).fault = none := by
  fun_induction Cut.ofText cs with
  | case1 => simp
  | case2 => simp
  | case3 c cs shape length h after ih => exact ih

end TestHooks.Swift
