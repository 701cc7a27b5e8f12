import TestHooks.Proofs.Composing
import TestHooks.Proofs.Reformatting

/-!
# Printing

Declarations to be written down, one on a line, and the tree that each stands for (`Source.decl`). Names, types and
literals are what they are called by construction; bodies and the texts that a reader skips are any texts with balanced
brackets. Only a text that goes on with another declaration on a new line, or that is empty, is no text of one
declaration (`Remainder`).
-/

namespace TestHooks.Swift

open TestHooks.Text

/-! ### Names and pieces of text -/

/-- The words that are no names here: those that declarations begin with, and `where`. -/
def reservedWords : List String := "where" :: (declarationKeywords ++ modifierWords)

structure Identifier where
  text : String
  isName : Name text.toList
  isFree : text ∉ reservedWords

def Identifier.element (name : Identifier) : Element := .word name.text.toList

/-- Elements that are cut as they stand, from a lexeme to a lexeme. -/
structure Excerpt where
  elements : List Element
  cut : Cut.ofText (elements.flatMap Element.text) = ⟨elements, [], none⟩
  starts : ∃ kind cs more, elements = ⟨.lexeme kind, cs⟩ :: more
  ends : EndsInLexeme elements

/-- The text of elements as a phrase keeps it. -/
def spanText (es : List Element) : String := String.ofList (collapse (es.flatMap Element.text))

def TokenKind.closer? : TokenKind → Option TokenKind
  | .leftBrace => some .rightBrace
  | .leftParen => some .rightParen
  | .leftBracket => some .rightBracket
  | _ => none

/-- True if the tokens close the brackets of `unclosed`, which lists their closing marks from the inside out, and all
that they open themselves, and if none of the tokens outside brackets satisfies `ends`. -/
def balances (ends : Token → Bool) : List TokenKind → List Token → Bool
  | unclosed, [] => unclosed.isEmpty
  | unclosed, t :: ts =>
    match t.kind.closer? with
    | some closer => balances ends (closer :: unclosed) ts
    | none =>
      if t.closesBracket then unclosed.head? == some t.kind && balances ends unclosed.tail ts
      else (!unclosed.isEmpty || !ends t) && balances ends unclosed ts

/-- What stands between two braces. A comment at its end would take the closing brace. -/
structure Block where
  inside : List Element
  cut : Cut.ofText (inside.flatMap Element.text) = ⟨inside, [], none⟩
  closes : ∀ e, inside.getLast? = some e → e.shape ≠ .lineComment
  isBalanced : balances (fun _ => false) [] (Token.ofElements .origin [] inside) = true

def Block.elements (b : Block) : List Element :=
  .mark .leftBrace '\x7b' :: (b.inside ++ [.mark .rightBrace '\x7d'])

/-- True if a statement ends at the token. -/
def Token.endsStatement (t : Token) : Bool :=
  t.kind == .semicolon || (t.newlineBefore && t.startsDeclaration)

/-- The rest of a declaration that is skipped. -/
structure Remainder extends Excerpt where
  isBalanced : balances Token.endsStatement [] (Token.ofElements .origin [] elements) = true

/-- The condition of a clause. -/
structure Condition extends Excerpt where
  line : '\n' ∉ elements.flatMap Element.text

/-! ### Types -/

/-- A type. All but function types may be followed by marks of optionals. -/
inductive TypeTerm
  | named (first : Identifier) (others : List Identifier) (arguments : List TypeTerm) (marks : Nat)
  | array (element : TypeTerm) (marks : Nat)
  | dictionary (key value : TypeTerm) (marks : Nat)
  | tuple (elements : List TypeTerm) (marks : Nat)
  | function (parameters : List TypeTerm) (effects : List Effect) (result : TypeTerm)

def optionalMarks : Nat → List Element
  | 0 => []
  | n + 1 => [⟨.lexeme .operator, List.replicate (n + 1) '?'⟩]

def arrowElement : Element := ⟨.lexeme .arrow, ['-', '>']⟩

def effectElements (effects : List Effect) : List Element :=
  effects.flatMap fun e => [.space, .word e.text.toList]

mutual

def TypeTerm.elements : TypeTerm → List Element
  | .named first others arguments marks =>
    first.element :: ((others.flatMap fun i => [.mark .dot '.', i.element]) ++
      ((if arguments.isEmpty then []
        else .mark .leftAngle '<' :: (typeList arguments ++ [.mark .rightAngle '>'])) ++ optionalMarks marks))
  | .array element marks =>
    .mark .leftBracket '[' :: (element.elements ++ .mark .rightBracket ']' :: optionalMarks marks)
  | .dictionary key value marks =>
    .mark .leftBracket '[' :: (key.elements ++ .mark .colon ':' :: .space ::
      (value.elements ++ .mark .rightBracket ']' :: optionalMarks marks))
  | .tuple elements marks =>
    .mark .leftParen '(' :: (typeList elements ++ .mark .rightParen ')' :: optionalMarks marks)
  | .function parameters effects result =>
    .mark .leftParen '(' :: (typeList parameters ++ .mark .rightParen ')' ::
      (effectElements effects ++ .space :: arrowElement :: .space :: result.elements))

/-- Types with commas between them. -/
def typeList : List TypeTerm → List Element
  | [] => []
  | t :: ts => t.elements ++ typesAfter ts

/-- Types with a comma before each. -/
def typesAfter : List TypeTerm → List Element
  | [] => []
  | t :: ts => .mark .comma ',' :: .space :: (t.elements ++ typesAfter ts)

end

def TypeTerm.text (t : TypeTerm) : String := spanText t.elements

/-! ### Variables -/

/-- A string, a number, or one of the words that are values. -/
structure Literal where
  kind : TokenKind
  chars : List Char
  isLiteral : kind = .string ∨ kind = .number ∨ kind = .identifier ∧ String.ofList chars ∈ ["true", "false", "nil"]
  cut : Cut.ofText chars = ⟨[⟨.lexeme kind, chars⟩], [], none⟩

def Literal.element (l : Literal) : Element := ⟨.lexeme l.kind, l.chars⟩

def Literal.text (l : Literal) : String := spanText [l.element]

/-- One of the accessors of a block, of those that may stand there. -/
structure Part (allowed : List Accessor) where
  accessor : Accessor
  isAllowed : accessor ∈ allowed
  body : Option Block

def blockElements (b : Option Block) : List Element :=
  b.elim [] fun b => .space :: b.elements

def Part.elements {allowed : List Accessor} (p : Part allowed) : List Element :=
  .word p.accessor.text.toList :: blockElements p.body

/-- The accessors of a block. -/
structure Parts (allowed : List Accessor) where
  first : Part allowed
  others : List (Part allowed)

def Parts.elements {allowed : List Accessor} (ps : Parts allowed) : List Element :=
  .space :: .mark .leftBrace '\x7b' :: .space :: (ps.first.elements ++
    ((ps.others.flatMap fun p => .space :: p.elements) ++ [.space, .mark .rightBrace '\x7d']))

def Parts.accessors {allowed : List Accessor} (ps : Parts allowed) : List Accessor :=
  ps.first.accessor :: ps.others.map Part.accessor

/-- What a variable holds. Observers follow a value. -/
inductive Content
  | nothing
  | computed (parts : Parts [.get, .set])
  | stored (value : Literal)
  | observed (value : Literal) (observers : Parts [.willSet, .didSet])

def Content.value? : Content → Option Literal
  | stored value | observed value _ => some value
  | _ => none

def Content.accessors? : Content → Option (List Accessor)
  | computed parts => some parts.accessors
  | observed _ observers => some observers.accessors
  | _ => none

def valueElements (value : Literal) : List Element :=
  [.space, ⟨.lexeme .operator, ['=']⟩, .space, value.element]

def Content.elements : Content → List Element
  | nothing => []
  | computed parts => parts.elements
  | stored value => valueElements value
  | observed value observers => valueElements value ++ observers.elements

structure Variable where
  name : Identifier
  type : Option TypeTerm
  content : Content

def Variable.elements (v : Variable) : List Element :=
  v.name.element :: ((v.type.elim [] fun t => .mark .colon ':' :: .space :: t.elements) ++ v.content.elements)

def Variable.binding (v : Variable) : Binding where
  name := v.name.text
  type := v.type.map TypeTerm.text
  initializer := v.content.value?.map Literal.text
  accessors := v.content.accessors?
  isPattern := false

/-! ### Functions -/

structure Slot where
  label : Identifier
  second : Option Identifier
  type : TypeTerm

def Slot.elements (s : Slot) : List Element :=
  s.label.element :: ((s.second.elim [] fun n => [.space, n.element]) ++ .mark .colon ':' :: .space :: s.type.elements)

def Slot.parameter (s : Slot) : Parameter where
  firstName := s.label.text
  secondName := s.second.map Identifier.text
  type := s.type.text
  defaultValue := none

def slotsAfter (slots : List Slot) : List Element :=
  slots.flatMap fun s => .mark .comma ',' :: .space :: s.elements

def slotList : List Slot → List Element
  | [] => []
  | s :: ss => s.elements ++ slotsAfter ss

structure Routine where
  name : Identifier
  slots : List Slot
  effects : List Effect
  result : Option TypeTerm
  body : Option Block

def Routine.elements (f : Routine) : List Element :=
  f.name.element :: .mark .leftParen '(' :: (slotList f.slots ++ .mark .rightParen ')' :: (effectElements f.effects ++
    ((f.result.elim [] fun t => .space :: arrowElement :: .space :: t.elements) ++ blockElements f.body)))

/-- What stands behind the parameters of a function. -/
def Routine.tail (f : Routine) : List Element :=
  effectElements f.effects ++ ((f.result.elim [] fun t => .space :: arrowElement :: .space :: t.elements) ++
    blockElements f.body)

def Routine.signature (f : Routine) : Signature where
  name := f.name.text
  isOperator := false
  generics := none
  parameters := f.slots.map Slot.parameter
  effects := f.effects
  returnType := f.result.map TypeTerm.text
  hasBody := f.body.isSome

/-! ### Declarations -/

/-- A modifier other than `class`, with a word in parentheses if it has one. -/
structure Qualifier where
  word : String
  isModifier : word ∈ modifierWords.erase "class"
  detail : Option String
  isName : ∀ d ∈ detail, Name d.toList

def Qualifier.modifier (q : Qualifier) : Modifier := ⟨q.word, q.detail⟩

def Qualifier.elements (q : Qualifier) : List Element :=
  .word q.word.toList :: ((q.detail.elim [] fun d => [.mark .leftParen '(', .word d.toList, .mark .rightParen ')']) ++
    [.space])

def qualifierElements (qs : List Qualifier) : List Element := qs.flatMap Qualifier.elements

/-- The modifiers of a variable or of a function; only there may `class` be the last of them. -/
structure Qualifiers where
  front : List Qualifier
  ofClass : Bool

def Qualifiers.elements (q : Qualifiers) : List Element :=
  qualifierElements q.front ++ if q.ofClass then [.word "class".toList, .space] else []

def Qualifiers.modifiers (q : Qualifiers) : List Modifier :=
  q.front.map Qualifier.modifier ++ if q.ofClass then [⟨"class", none⟩] else []

/-- A declaration whose inside is skipped. -/
inductive Skipped
  | initializer (rest : Remainder)
  | deinitializer (rest : Remainder)
  | synonym (name : Identifier) (rest : Remainder)

def Skipped.keyword : Skipped → String
  | initializer _ => "init"
  | deinitializer _ => "deinit"
  | synonym _ _ => "typealias"

def Skipped.name : Skipped → String
  | synonym name _ => name.text
  | _ => ""

/-- What is skipped, and the name before it. -/
def Skipped.inside : Skipped → List Element
  | initializer rest | deinitializer rest => .space :: rest.elements
  | synonym name rest => .space :: name.element :: .space :: rest.elements

def Skipped.elements (s : Skipped) : List Element := .word s.keyword.toList :: s.inside

def inheritanceElements : List TypeTerm → List Element
  | [] => []
  | t :: ts => .mark .colon ':' :: .space :: typeList (t :: ts)

mutual

/-- A declaration to be written down. -/
inductive Source
  | type (qualifiers : List Qualifier) (keyword : TypeKeyword) (name : Identifier) (inherited : List TypeTerm)
    (members : List Source)
  | variableList (qualifiers : Qualifiers) (keyword : VariableKeyword) (first : Variable) (others : List Variable)
  | function (qualifiers : Qualifiers) (routine : Routine)
  | skipped (qualifiers : List Qualifier) (skipped : Skipped)
  | conditional (condition : Condition) (members : List Source) (arms : List Arm)

/-- A further clause of a conditional block. Without a condition it is `#else`. -/
inductive Arm
  | mk (condition : Option Condition) (members : List Source)

end

def directiveElement (keyword : ClauseKeyword) : Element := ⟨.lexeme .hashWord, keyword.text.toList⟩

/-- The line of a directive with a condition. -/
def clauseLine (keyword : ClauseKeyword) (condition : Condition) : List Element :=
  directiveElement keyword :: .space :: (condition.elements ++ [.lineBreak []])

mutual

def Source.elements : Source → List Element
  | .type qualifiers keyword name inherited members =>
    qualifierElements qualifiers ++ .word keyword.text.toList :: .space :: name.element :: (inheritanceElements inherited ++
      .space :: .mark .leftBrace '\x7b' :: .lineBreak [] :: (page members ++ [.mark .rightBrace '\x7d']))
  | .variableList qualifiers keyword first others =>
    qualifiers.elements ++ .word keyword.text.toList :: .space :: (first.elements ++
      others.flatMap fun v => .mark .comma ',' :: .space :: v.elements)
  | .function qualifiers routine => qualifiers.elements ++ .word "func".toList :: .space :: routine.elements
  | .skipped qualifiers skipped => qualifierElements qualifiers ++ skipped.elements
  | .conditional condition members arms =>
    clauseLine .ifClause condition ++ (page members ++ (armElements arms ++ [⟨.lexeme .hashWord, "#endif".toList⟩]))

/-- Declarations, each with a line break after it. -/
def page : List Source → List Element
  | [] => []
  | s :: ss => s.elements ++ .lineBreak [] :: page ss

def armElements : List Arm → List Element
  | [] => []
  | .mk (some condition) members :: arms => clauseLine .elseifClause condition ++ (page members ++ armElements arms)
  | .mk none members :: arms =>
    directiveElement .elseClause :: .lineBreak [] :: (page members ++ armElements arms)

end

/-! ### The trees -/

/-- The head of a declaration with these modifiers, without its place. -/
def plainHead (modifiers : List Modifier) : Head := ⟨[], modifiers, Place.origin.toPosition⟩

/-- The name of a type. An extension names a type, and keeps it as a phrase. -/
def typeNameOf (keyword : TypeKeyword) (name : Identifier) : String :=
  if keyword = .extensionType then spanText [name.element] else name.text

mutual

/-- The declaration that is written down, without places. -/
def Source.decl : Source → Decl
  | .type qualifiers keyword name inherited members =>
    .group (plainHead (qualifiers.map Qualifier.modifier))
      ⟨keyword, typeNameOf keyword name, none, inherited.map TypeTerm.text⟩ (declList members)
  | .variableList qualifiers keyword first others =>
    .variableList (plainHead qualifiers.modifiers) keyword (first.binding :: others.map Variable.binding)
  | .function qualifiers routine => .function (plainHead qualifiers.modifiers) routine.signature
  | .skipped qualifiers skipped =>
    .other (plainHead (qualifiers.map Qualifier.modifier)) skipped.keyword skipped.name
  | .conditional condition members arms =>
    .conditional Place.origin.toPosition
      (.mk .ifClause (spanText condition.elements) (declList members) :: clauseList arms)

def declList : List Source → List Decl
  | [] => []
  | s :: ss => s.decl :: declList ss

def clauseList : List Arm → List Clause
  | [] => []
  | .mk (some condition) members :: arms =>
    .mk .elseifClause (spanText condition.elements) (declList members) :: clauseList arms
  | .mk none members :: arms => .mk .elseClause "" (declList members) :: clauseList arms

end

/-- Declarations as the text of a file. -/
def printed (sources : List Source) : String := String.ofList ((page sources).flatMap Element.text)

end TestHooks.Swift
