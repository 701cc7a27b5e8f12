import TestHooks.Swift.SyntaxError

/-!
# Tokens

A token is a lexeme with its place and the gap of blanks and comments before it. Gaps and token texts
together are the text that was read (`Token.written_ofElements`).
-/

namespace TestHooks.Swift

structure Token where
  kind : TokenKind
  text : String
  /-- Blanks and comments since the previous token. -/
  gap : String
  start : Place
  deriving DecidableEq, Repr

namespace Token

/-- The number of characters before the end of the token. -/
def stop (t : Token) : Nat :=
  t.start.offset + t.text.length

def position (t : Token) : Position :=
  t.start.toPosition

/-- True if a line break stands between the previous token and this one. -/
def newlineBefore (t : Token) : Bool :=
  t.gap.toList.contains '\n'

/-- True if nothing stands between the previous token and this one. -/
def isAttached (t : Token) : Bool :=
  t.gap.isEmpty

def isIdentifier (t : Token) (word : String) : Bool :=
  t.kind == .identifier && t.text == word

def isOneOf (t : Token) (words : List String) : Bool :=
  t.kind == .identifier && words.contains t.text

/-- The tokens of elements that begin at `place`, when `gap` has been read since the previous token. -/
def ofElements (place : Place) (gap : List Char) : List Element → List Token
  | [] => []
  | e :: es =>
    let after := place.advance e.text
    match e.shape with
    | .lexeme kind => ⟨kind, String.ofList e.text, String.ofList gap, place⟩ :: ofElements after [] es
    | _ => ofElements after (gap ++ e.text) es

/-- The text of tokens together with their gaps. -/
def written (ts : List Token) : List Char :=
  ts.flatMap fun t => t.gap.toList ++ t.text.toList

/-- The blanks and comments after the last lexeme, when `gap` has been read since the previous token. -/
def finalGap (gap : List Char) : List Element → List Char
  | [] => gap
  | e :: es =>
    match e.shape with
    | .lexeme _ => finalGap [] es
    | _ => finalGap (gap ++ e.text) es

theorem written_ofElements (place : Place) (gap : List Char) (es : List Element) :
    written (ofElements place gap es) ++ finalGap gap es = gap ++ es.flatMap Element.text := by
  induction es generalizing place gap with
  | nil => simp [written, ofElements, finalGap]
  | cons e es ih =>
    simp only [ofElements, finalGap]
    split
    · simp only [written, List.flatMap_cons, String.toList_ofList, List.append_assoc]
      have := ih (place.advance e.text) []
      simp only [written, List.nil_append] at this
      rw [this]
    · rw [ih, List.flatMap_cons, List.append_assoc]

end Token

/-- The tokens of a text, up to its end or to the first failure. -/
structure Tokens where
  tokens : List Token
  failure : Option SyntaxError
  deriving DecidableEq, Repr

def Tokens.ofText (text : String) : Tokens :=
  let cut := Cut.ofText text.toList
  let reached := Place.origin.advance (cut.elements.flatMap Element.text)
  ⟨Token.ofElements .origin [] cut.elements, cut.fault.map fun fault => ⟨.lexical fault, reached.toPosition⟩⟩

end TestHooks.Swift
