import TestHooks.Position
import TestHooks.Swift.Lexeme

/-!
# Errors in Swift text

An error is a cause, and a position where one is known. The wording of each cause is `Cause.message`.
-/

namespace TestHooks.Swift

/-- Why a text cannot be read. Causes that name a token carry its text. -/
inductive Cause
  | lexical (fault : LexicalFault)
  | unexpectedEnd
  | unexpectedEndOfBlock
  | expectedKind (kind : TokenKind) (found : String)
  | unclosed (opener : String)
  | unbalancedBrace
  | onlyAttributes
  | expectedDeclaration (found : String)
  | expectedAccessor (found : String)
  | expectedFunctionName
  | expectedCondition (directive : String)
  | unexpectedDirective (directive : String)
  | unterminatedCondition
  | expectedType
  | expectedExpression
  deriving DecidableEq, Repr

def LexicalFault.message : LexicalFault → String
  | unterminatedString => "Unterminated string literal"
  | unterminatedInterpolation => "Unterminated string interpolation"
  | unterminatedComment => "Unterminated block comment"
  | illegal snippet => "Illegal character '" ++ String.ofList snippet ++ "...'"

def Cause.message : Cause → String
  | lexical fault => fault.message
  | unexpectedEnd => "Unexpected end of file"
  | unexpectedEndOfBlock => "Unexpected end of file in member block"
  | expectedKind kind found => "Expected " ++ kind.name ++ ", got '" ++ found ++ "'"
  | unclosed opener => "Unclosed '" ++ opener ++ "'"
  | unbalancedBrace => "Unbalanced '\x7d'"
  | onlyAttributes => "Expected declaration after attributes"
  | expectedDeclaration found => "Expected declaration, got '" ++ found ++ "'"
  | expectedAccessor found => "Expected accessor, got '" ++ found ++ "'"
  | expectedFunctionName => "Expected function name"
  | expectedCondition directive => "Expected condition after '" ++ directive ++ "'"
  | unexpectedDirective directive => "Unexpected '" ++ directive ++ "'"
  | unterminatedCondition => "Unterminated '#if'"
  | expectedType => "Expected type"
  | expectedExpression => "Expected expression"

structure SyntaxError where
  cause : Cause
  position : Option Position
  deriving DecidableEq, Repr

/-- The wording of the cause, followed by the position if it is known. -/
def SyntaxError.message (e : SyntaxError) : String :=
  match e.position with
  | some p => e.cause.message ++ " at line " ++ toString p.line ++ ", col " ++ toString p.column
  | none => e.cause.message

end TestHooks.Swift
