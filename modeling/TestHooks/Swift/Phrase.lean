import TestHooks.Swift.Reader
import TestHooks.Swift.Tree

/-!
# Phrases

Groups in brackets, types, expressions, conditions and whole statements are read without looking into them.
Each function here splits a list of tokens where the phrase ends. A phrase is kept as its text, in which every run
of blanks is one space.
-/

namespace TestHooks.Swift

open TestHooks.Text

/-- The text of a phrase, from the start of its first token to the end of its last. -/
def phrase : List Token → String
  | [] => ""
  | t :: ts => String.ofList (collapse (t.text.toList ++ Token.written ts))

/-! ### Splitting -/

def Token.opensBracket (t : Token) : Bool :=
  t.kind == .leftBrace || t.kind == .leftParen || t.kind == .leftBracket

def Token.closesBracket (t : Token) : Bool :=
  t.kind == .rightBrace || t.kind == .rightParen || t.kind == .rightBracket

/-- True for attributes, directives, keywords of declarations and modifiers. -/
def Token.startsDeclaration (t : Token) : Bool :=
  t.kind == .atWord || t.kind == .hashWord || t.isOneOf declarationKeywords || t.isOneOf modifierWords

/-- Splits after the bracket that closes a group, inside `depth` more groups of the same bracket. -/
def splitGroup (opener closer : TokenKind) : Nat → List Token → Option (List Token × List Token)
  | _, [] => none
  | depth, t :: ts =>
    if t.kind = opener then (splitGroup opener closer (depth + 1) ts).map fun p => (t :: p.1, p.2)
    else if t.kind = closer then
      match depth with
      | 0 => some ([t], ts)
      | depth + 1 => (splitGroup opener closer depth ts).map fun p => (t :: p.1, p.2)
    else (splitGroup opener closer depth ts).map fun p => (t :: p.1, p.2)

theorem splitGroup_append {opener closer : TokenKind} {depth : Nat} {ts group rest : List Token}
    (h : splitGroup opener closer depth ts = some (group, rest)) : group ++ rest = ts := by
  induction ts generalizing depth group with
  | nil => simp [splitGroup] at h
  | cons t ts ih =>
    have step : ∀ {d : Nat}, (splitGroup opener closer d ts).map (fun p => (t :: p.1, p.2)) = some (group, rest) →
        group ++ rest = t :: ts := by
      intro d hd
      obtain ⟨⟨g, r⟩, hg, he⟩ := Option.map_eq_some_iff.1 hd
      cases he
      rw [List.cons_append, ih hg]
    unfold splitGroup at h
    split at h
    · exact step h
    · split at h
      · split at h
        · cases h
          rfl
        · exact step h
      · exact step h

/-- True if the token can only follow a type. -/
def Token.endsType (t : Token) : Bool :=
  t.kind == .comma || t.kind == .colon || t.kind == .semicolon || t.kind == .leftBrace || t.kind == .rightBrace ||
    t.kind == .rightParen || t.kind == .rightBracket || t.kind == .rightAngle ||
    (t.kind == .operator && t.text.toList.head? == some '=')

/-- True if a type goes on after a line break next to the token. -/
def Token.continuesType (t : Token) : Bool :=
  t.kind == .arrow || t.kind == .dot

/-- True if the type that `previous` belongs to has ended before `t`. -/
def Token.breaksType (previous : Option Token) (t : Token) : Bool :=
  previous.any fun last => t.newlineBefore && !last.continuesType && !t.continuesType

/-- The brackets open after the token in a type, when `depth` are open before it. -/
def typeDepth (depth : Nat) (t : Token) : Nat :=
  if t.kind == .leftParen || t.kind == .leftBracket || t.kind == .leftAngle then depth + 1
  else if t.kind == .rightParen || t.kind == .rightBracket || t.kind == .rightAngle then depth - 1
  else depth

/-- Splits where a type ends: outside brackets before a token that can only follow it, before one of the words
`stops`, and at a line break that no arrow or dot bridges. -/
def splitType (stops : List String) : Nat → Option Token → List Token → List Token × List Token
  | _, _, [] => ([], [])
  | depth, previous, t :: ts =>
    if depth = 0 && (t.endsType || t.isOneOf stops || t.breaksType previous) then ([], t :: ts)
    else
      let after := splitType stops (typeDepth depth t) (some t) ts
      (t :: after.1, after.2)

theorem splitType_append (stops : List String) (depth : Nat) (previous : Option Token) (ts : List Token) :
    (splitType stops depth previous ts).1 ++ (splitType stops depth previous ts).2 = ts := by
  induction ts generalizing depth previous with
  | nil => rfl
  | cons t ts ih =>
    rw [splitType]
    split
    · rfl
    · rw [List.cons_append, ih]

/-- The brackets open after the token in an expression, when `depth` are open before it. -/
def expressionDepth (depth : Nat) (t : Token) : Nat :=
  if t.opensBracket then depth + 1 else if t.closesBracket then depth - 1 else depth

/-- True if the expression has ended before `t`, which stands before `ts`. The brace that opens observers of a
variable is not part of its initializer. -/
def Token.endsExpression (isFirst : Bool) (t : Token) (ts : List Token) : Bool :=
  t.kind == .comma || t.kind == .semicolon || t.closesBracket ||
    (!isFirst && t.newlineBefore && t.startsDeclaration) ||
    (t.kind == .leftBrace && ts.head?.any (·.isOneOf ["willSet", "didSet"]))

/-- Splits where an expression ends. -/
def splitExpression : Nat → Bool → List Token → List Token × List Token
  | _, _, [] => ([], [])
  | depth, isFirst, t :: ts =>
    if depth = 0 && t.endsExpression isFirst ts then ([], t :: ts)
    else
      let after := splitExpression (expressionDepth depth t) false ts
      (t :: after.1, after.2)

theorem splitExpression_append (depth : Nat) (isFirst : Bool) (ts : List Token) :
    (splitExpression depth isFirst ts).1 ++ (splitExpression depth isFirst ts).2 = ts := by
  induction ts generalizing depth isFirst with
  | nil => rfl
  | cons t ts ih =>
    rw [splitExpression]
    split
    · rfl
    · rw [List.cons_append, ih]

/-- The brackets open after the token in a statement. A statement may close brackets that it has not opened. -/
def statementDepth (depth : Int) (t : Token) : Int :=
  if t.opensBracket then depth + 1 else if t.closesBracket then depth - 1 else depth

/-- What follows a statement: the rest after a semicolon, from a closing brace on, or from a declaration on a new
line on. -/
def afterStatement : Int → Bool → List Token → List Token
  | _, _, [] => []
  | depth, isFirst, t :: ts =>
    if depth = 0 && t.kind == .rightBrace then t :: ts
    else if depth = 0 && t.kind == .semicolon then ts
    else if depth = 0 && !isFirst && t.newlineBefore && t.startsDeclaration then t :: ts
    else afterStatement (statementDepth depth t) false ts

theorem afterStatement_suffix (depth : Int) (isFirst : Bool) (ts : List Token) :
    afterStatement depth isFirst ts <:+ ts := by
  induction ts generalizing depth isFirst with
  | nil => exact List.suffix_refl _
  | cons t ts ih =>
    rw [afterStatement]
    split
    · exact List.suffix_refl _
    · split
      · exact List.suffix_cons _ _
      · split
        · exact List.suffix_refl _
        · exact (ih _ _).trans (List.suffix_cons _ _)

/-- In brackets a statement goes on over every token. -/
theorem afterStatement_inside {depth : Int} (hd : depth ≠ 0) (isFirst : Bool) (t : Token) (ts : List Token) :
    afterStatement depth isFirst (t :: ts) = afterStatement (statementDepth depth t) false ts := by
  rw [afterStatement, if_neg (by simp [hd]), if_neg (by simp [hd]), if_neg (by simp [hd])]

/-- A statement goes on over a token that is no mark of its end and with which no declaration begins behind it. -/
theorem afterStatement_step {t : Token} {isFirst : Bool} (hb : t.kind ≠ .rightBrace) (hs : t.kind ≠ .semicolon)
    (hn : isFirst = true ∨ t.newlineBefore = false ∨ t.startsDeclaration = false) (depth : Int) (ts : List Token) :
    afterStatement depth isFirst (t :: ts) = afterStatement (statementDepth depth t) false ts := by
  rw [afterStatement, if_neg (by simp [hb]), if_neg (by simp [hs]), if_neg]
  rcases hn with hn | hn | hn <;> simp [hn]

/-- A statement ends before a closing brace and before a declaration on a line of its own. -/
theorem afterStatement_stop {t : Token}
    (h : t.kind = .rightBrace ∨ t.newlineBefore = true ∧ t.startsDeclaration = true) (ts : List Token) :
    afterStatement 0 false (t :: ts) = t :: ts := by
  rw [afterStatement]
  rcases h with hb | ⟨hn, hd⟩
  · rw [if_pos (by simp [hb])]
  · have hs : t.kind ≠ .semicolon := by
      intro hs
      simp [Token.startsDeclaration, Token.isOneOf, hs] at hd
    rw [if_neg (by simp [hs] : ¬(decide ((0 : Int) = 0) && t.kind == .semicolon) = true),
      if_pos (by simp [hn, hd] : (decide ((0 : Int) = 0) && !false && t.newlineBefore && t.startsDeclaration) = true),
      ite_self]

/-! ### Reading -/

namespace Reader

/-- The rest of a group after its opening bracket. -/
def group (closer : TokenKind) (opener : Token) : Reader (List Token) where
  run ts :=
    match splitGroup opener.kind closer 0 ts with
    | some (inside, rest) => .ok (opener :: inside, rest)
    | none => .error (opener.fault (.unclosed opener.text))
  suffix {ts x rest} h := by
    split at h
    · next inside left hs =>
      cases h
      exact ⟨inside, splitGroup_append hs⟩
    · simp at h

/-- Takes the phrase that `split` finds at the front; an empty one is a fault of the next token. -/
def phraseBy (split : List Token → List Token × List Token) (h : ∀ ts, (split ts).1 ++ (split ts).2 = ts)
    (missing : Cause) : Reader String where
  run ts :=
    match split ts with
    | ([], []) => .error ⟨missing, .lastToken⟩
    | ([], t :: _) => .error (t.fault missing)
    | (taken, rest) => .ok (phrase taken, rest)
  suffix {ts x rest} hr := by
    split at hr
    · simp at hr
    · simp at hr
    · next taken left _ _ hs =>
      cases hr
      exact ⟨taken, by simpa [hs] using h ts⟩

/-- The text of a type. -/
def typeText (stops : List String) : Reader String :=
  phraseBy (splitType stops 0 none) (splitType_append stops 0 none) .expectedType

/-- The text of an expression. -/
def expressionText : Reader String :=
  phraseBy (splitExpression 0 true) (splitExpression_append 0 true) .expectedExpression

/-- Drops the rest of a statement. -/
def statement : Reader Unit where
  run ts := .ok ((), afterStatement 0 true ts)
  suffix h := by
    cases h
    exact afterStatement_suffix _ _ _

/-- The condition of a directive: the rest of its line. -/
def condition (directive : Token) : Reader String where
  run
    | [] => .error (directive.fault (.expectedCondition directive.text))
    | t :: ts =>
      if t.newlineBefore then .error (directive.fault (.expectedCondition directive.text))
      else .ok (phrase (t :: ts.takeWhile (!·.newlineBefore)), ts.dropWhile (!·.newlineBefore))
  suffix {ts x rest} h := by
    cases ts with
    | nil => simp at h
    | cons t ts =>
      simp only at h
      split at h
      · simp at h
      · cases h
        exact (List.dropWhile_suffix _).trans (List.suffix_cons _ _)

end Reader

end TestHooks.Swift
