import TestHooks.Swift.Phrase

/-!
# Headers of declarations

Everything of a declaration that is not itself made of declarations: attributes, modifiers, variables,
signatures, and the header of a type up to its opening brace.
-/

namespace TestHooks.Swift.Reader

open TestHooks.Reader TestHooks.Swift

/-! ### Attributes and modifiers -/

/-- An attribute after its at-word. Arguments belong to it only if nothing stands between. -/
def attributeAfter (t : Token) : Reader Attribute := do
  let arguments ← optionally (fun p => p.kind == .leftParen && p.isAttached) (group .rightParen)
  let last := (arguments.bind List.getLast?).getD t
  pure ⟨String.ofList (t.text.toList.drop 1), t.start, last.stop⟩

def attributes : Reader (List Attribute) :=
  whileNext (·.kind == .atWord) attributeAfter

/-- True if `class` before these tokens modifies a member and does not declare a type. -/
def modifiesMember : List Token → Bool
  | t :: _ => t.isOneOf modifierWords || t.isOneOf ["var", "let", "func", "subscript"]
  | [] => false

/-- The word in parentheses that these tokens begin with. -/
def modifierDetail? : List Token → Option String
  | a :: b :: c :: _ =>
    if a.kind = .leftParen && b.kind = .identifier && c.kind = .rightParen then some b.text else none
  | _ => none

/-- The modifiers that the tokens begin with, and the tokens after them. -/
def splitModifiers (ts : List Token) : List Modifier × List Token :=
  match ts with
  | [] => ([], [])
  | t :: rest =>
    if t.isOneOf modifierWords && (t.text != "class" || modifiesMember rest) then
      let detail := modifierDetail? rest
      let after := splitModifiers (rest.drop (if detail.isSome then 3 else 0))
      (⟨t.text, detail⟩ :: after.1, after.2)
    else ([], t :: rest)
termination_by ts.length
decreasing_by
  simp only [List.length_cons, List.length_drop]
  omega

theorem splitModifiers_suffix (ts : List Token) : (splitModifiers ts).2 <:+ ts := by
  fun_induction splitModifiers ts with
  | case1 => exact List.suffix_refl _
  | case2 t rest _ detail after ih => exact ih.trans ((List.drop_suffix _ _).trans (List.suffix_cons _ _))
  | case3 => exact List.suffix_refl _

def modifiers : Reader (List Modifier) where
  run ts := .ok (splitModifiers ts)
  suffix {ts x rest} h := by
    have hs : splitModifiers ts = (x, rest) := Except.ok.inj h
    simpa [hs] using splitModifiers_suffix ts

/-! ### Variables -/

def accessorPrefixes : List String := ["mutating", "nonmutating", "__consuming"]

def accessorOf? (t : Token) : Option Accessor :=
  if t.kind = .identifier then Accessor.all.find? (·.text == t.text) else none

def effectOf? (t : Token) : Option Effect :=
  if t.kind = .identifier then Effect.all.find? (·.text == t.text) else none

/-- The effect that the token names. An argument in parentheses is dropped. -/
def effects : Reader (List Effect) := do
  let found ← whileNext (fun t => (effectOf? t).isSome) fun t => do
    let _ ← optionally (·.kind == .leftParen) (group .rightParen)
    pure (effectOf? t)
  pure (found.filterMap id)

/-- True if a block with these tokens after its opening brace lists accessors. The word `get` before a
parenthesis is a call. -/
def listsAccessors (ts : List Token) : Bool :=
  match ts.dropWhile fun t => t.kind == .atWord || t.isOneOf accessorPrefixes with
  | [] => false
  | t :: rest =>
    match accessorOf? t, rest with
    | none, _ => false
    | some _, [] => true
    | some accessor, next :: _ =>
      if next.kind = .leftParen then accessor != .get
      else next.kind == .leftBrace || next.kind == .rightBrace || next.kind == .identifier

/-- The accessor that a token must name. -/
def accessorNamed (t : Token) : Reader Accessor :=
  match accessorOf? t with
  | some accessor => pure accessor
  | none => fail (t.fault (.expectedAccessor t.text))

def accessor : Reader Accessor := do
  let _ ← attributes
  skipWhile (·.isOneOf accessorPrefixes)
  let t ← token .identifier
  let named ← accessorNamed t
  let _ ← optionally (·.kind == .leftParen) (group .rightParen)
  let _ ← effects
  let _ ← optionally (·.kind == .leftBrace) (group .rightBrace)
  pure named

theorem strict_accessor : Strict accessor :=
  Strict.of_bind _ fun _ => Strict.of_bind _ fun _ => (strict_token _).bind _

def listedAccessors : Reader (List Accessor) := do
  let listed ← untilNext (·.kind == .rightBrace) accessor strict_accessor
  let _ ← token .rightBrace
  pure listed

/-- The accessors of a block after its opening brace. A block that lists none is a getter. -/
def accessorBlock (opener : Token) : Reader (List Accessor) := do
  if ← look listsAccessors then listedAccessors
  else
    let _ ← group .rightBrace opener
    pure [.get]

/-- The name that a binding declares, or the text of its pattern. -/
def bindingName : Reader (String × Bool) := do
  match ← optionally (·.kind == .leftParen) (group .rightParen) with
  | some pattern => pure (phrase pattern, true)
  | none =>
    let t ← token .identifier
    pure (t.text, false)

def isAssignment (t : Token) : Bool :=
  t.kind == .operator && t.text == "="

def binding : Reader Binding := do
  let (name, isPattern) ← bindingName
  let type ← optionally (·.kind == .colon) fun _ => typeText []
  let initializer ← optionally isAssignment fun _ => expressionText
  let accessors ← optionally (·.kind == .leftBrace) accessorBlock
  pure { name, type, initializer, accessors, isPattern }

/-! ### Functions -/

def startsOperator (t : Token) : Bool :=
  t.kind == .operator || t.kind == .leftAngle || t.kind == .rightAngle || t.kind == .dot || t.kind == .ellipsis

/-- True if the token goes on with the name of an operator. -/
def continuesOperator (t : Token) : Bool :=
  t.isAttached && (t.kind == .operator || t.kind == .rightAngle || t.kind == .dot || t.kind == .ellipsis)

/-- The name of an operator. -/
def operatorName : Reader String where
  run
    | [] => .error ⟨.expectedFunctionName, .lastToken⟩
    | t :: ts =>
      if startsOperator t then
        let more := ts.takeWhile continuesOperator
        .ok (String.join (t.text :: more.map Token.text), ts.dropWhile continuesOperator)
      else .error (t.fault .expectedFunctionName)
  suffix {ts x rest} h := by
    cases ts with
    | nil => simp at h
    | cons t ts =>
      simp only at h
      split at h
      · cases h
        exact (List.dropWhile_suffix _).trans (List.suffix_cons _ _)
      · simp at h

/-- The name of a function, and whether it is an operator. -/
def functionName : Reader (String × Bool) := do
  match ← optionally (·.kind == .identifier) pure with
  | some t => pure (t.text, false)
  | none => do pure (← operatorName, true)

def genericClause : Reader (Option String) :=
  optionally (·.kind == .leftAngle) fun t => do pure (phrase (← group .rightAngle t))

def parameter : Reader Parameter := do
  let _ ← attributes
  let first ← token .identifier
  let second ← optionally (·.kind == .identifier) pure
  let _ ← token .colon
  let type ← typeText []
  let defaultValue ← optionally isAssignment fun _ => expressionText
  pure { firstName := first.text, secondName := second.map Token.text, type, defaultValue }

/-- A parameter, unless the clause ends here. -/
def parameterUnlessClosed : Reader (Option Parameter) := do
  if ← look fun ts => ts.head?.any (·.kind == .rightParen) then pure none
  else
    let p ← parameter
    pure (some p)

/-- Parameters in parentheses; a comma may follow the last. -/
def parameterClause : Reader (List Parameter) := do
  let _ ← token .leftParen
  let first ← parameterUnlessClosed
  let others ← whileNext (·.kind == .comma) fun _ => parameterUnlessClosed
  let _ ← token .rightParen
  pure ((first :: others).filterMap id)

/-- Drops the requirements of a function: the rest before the next brace. -/
def functionRequirements : Reader (Option Unit) :=
  optionally (·.isIdentifier "where") fun _ => skipWhile fun t => t.kind != .leftBrace && t.kind != .rightBrace

/-- A function after its keyword. -/
def function : Reader Signature := do
  let (name, isOperator) ← functionName
  let generics ← genericClause
  let parameters ← parameterClause
  let effects ← effects
  let returnType ← optionally (·.kind == .arrow) fun _ => typeText ["where"]
  let _ ← functionRequirements
  let body ← optionally (·.kind == .leftBrace) (group .rightBrace)
  pure { name, isOperator, generics, parameters, effects, returnType, hasBody := body.isSome }

/-! ### Types -/

/-- The name of a type and its generic parameters. An extension names a type, others declare a name. -/
def typeName (keyword : TypeKeyword) : Reader (String × Option String) :=
  if keyword = .extensionType then do
    let name ← typeText ["where"]
    pure (name, none)
  else do
    let t ← token .identifier
    let generics ← genericClause
    pure (t.text, generics)

def inheritance : Reader (List String) := do
  let inherited ← optionally (·.kind == .colon) fun _ => byCommas (typeText ["where"])
  pure (inherited.getD [])

/-- The header of a type after its keyword, with the brace that opens its members. -/
def typeHeader (keyword : TypeKeyword) : Reader TypeHeader := do
  let (name, generics) ← typeName keyword
  let inherited ← inheritance
  let _ ← optionally (·.isIdentifier "where") fun _ => skipWhile (·.kind != .leftBrace)
  let _ ← token .leftBrace
  pure { keyword, name, generics, inherited }

theorem strict_typeHeader (keyword : TypeKeyword) : Strict (typeHeader keyword) :=
  Strict.of_bind _ fun _ => Strict.of_bind _ fun _ => Strict.of_bind _ fun _ => (strict_token _).bind _

/-! ### Other declarations -/

/-- The name of a declaration whose inside is skipped, after its keyword. -/
def otherName (keyword : String) : Reader String := do
  let next ← look List.head?
  statement
  match next with
  | some t =>
    pure (if t.kind = .identifier && !(["init", "deinit", "subscript"].contains keyword) then t.text else "")
  | none => pure ""

/-- A directive that is no part of a conditional block. -/
def directive (t : Token) : Reader Unit := do
  if ["#elseif", "#else", "#endif"].contains t.text then fail (t.fault (.unexpectedDirective t.text))
  else
    let _ ← optionally (·.kind == .leftParen) (group .rightParen)
    pure ()

end TestHooks.Swift.Reader
