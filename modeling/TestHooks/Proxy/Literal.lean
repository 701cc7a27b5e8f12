import TestHooks.Swift.Lexeme

/-!
# Types of literals

The type of an initializer that looks like a plain literal. For a string only its opening is looked at.
-/

namespace TestHooks.Proxy

open TestHooks.Text TestHooks.Swift

/-- True for a nonempty text of digits that satisfy `p`. -/
def isDigits (p : Char → Bool) (cs : List Char) : Bool :=
  !cs.isEmpty && cs.all p

def isOctalDigit (c : Char) : Bool := ('0' ≤ c && c ≤ '7') || c == '_'

def isBinaryDigit (c : Char) : Bool := c == '0' || c == '1' || c == '_'

/-- The text without a minus sign in front. -/
def unsigned (cs : List Char) : List Char :=
  if cs.head? = some '-' then cs.drop 1 else cs

/-- True for a whole number in base ten, or in base 16, 8 or 2 after its mark. -/
def isWholeNumber : List Char → Bool
  | '0' :: 'x' :: cs => isDigits isRadixDigit cs
  | '0' :: 'o' :: cs => isDigits isOctalDigit cs
  | '0' :: 'b' :: cs => isDigits isBinaryDigit cs
  | c :: cs => isDecimalDigit c && cs.all isDigitOrUnderscore
  | [] => false

/-- True for a decimal number with or without fraction and exponent. -/
def isDecimalNumber : List Char → Bool
  | c :: cs => isDecimalDigit c && decimalTail cs == cs.length
  | [] => false

/-- The type of a literal. -/
def literalTypeOf? (cs : List Char) : Option String :=
  if cs = "true".toList || cs = "false".toList then some "Bool"
  else if (literalOpening? cs).isSome then some "String"
  else if isWholeNumber (unsigned cs) then some "Int"
  else if isDecimalNumber (unsigned cs) then some "Double"
  else none

/-- The type of an initializer, blanks around it aside. -/
def literalType? (initializer : Option String) : Option String :=
  initializer.bind fun text => literalTypeOf? (trimWhile isBlank text.toList)

end TestHooks.Proxy
