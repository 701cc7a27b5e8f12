import TestHooks.Position

/-!
# Declarations of a Swift file

The tree is shallow: declarations keep their names, modifiers, attributes and the text of types and
initializers, and nothing is kept of bodies.
-/

namespace TestHooks.Swift

/-- An attribute such as `@available(iOS 15, *)`, from its mark to the end of its arguments. -/
structure Attribute where
  name : String
  start : Place
  stop : Nat
  deriving DecidableEq, Repr

/-- A modifier such as `static` or `private(set)`. -/
structure Modifier where
  name : String
  detail : Option String
  deriving DecidableEq, Repr

/-- What every declaration begins with, and where. -/
structure Head where
  attributes : List Attribute
  modifiers : List Modifier
  position : Position
  deriving DecidableEq, Repr

inductive TypeKeyword
  | classType | structType | enumType | actorType | protocolType | extensionType
  deriving DecidableEq, Repr

inductive VariableKeyword
  | varKeyword | letKeyword
  deriving DecidableEq, Repr

inductive Accessor
  | get | set | willSet | didSet | init | read | modify | unsafeAddress | unsafeMutableAddress
  deriving DecidableEq, Repr

inductive Effect
  | async | throws | rethrows | reasync
  deriving DecidableEq, Repr

inductive ClauseKeyword
  | ifClause | elseifClause | elseClause
  deriving DecidableEq, Repr

/-- One name or pattern of a variable declaration. No accessors are not the same as an empty block. -/
structure Binding where
  name : String
  type : Option String
  initializer : Option String
  accessors : Option (List Accessor)
  isPattern : Bool
  deriving DecidableEq, Repr

structure Parameter where
  firstName : String
  secondName : Option String
  type : String
  defaultValue : Option String
  deriving DecidableEq, Repr

structure Signature where
  name : String
  isOperator : Bool
  generics : Option String
  parameters : List Parameter
  effects : List Effect
  returnType : Option String
  hasBody : Bool
  deriving DecidableEq, Repr

structure TypeHeader where
  keyword : TypeKeyword
  name : String
  generics : Option String
  inherited : List String
  deriving DecidableEq, Repr

mutual

inductive Decl
  | group (head : Head) (header : TypeHeader) (members : List Decl)
  | variableList (head : Head) (keyword : VariableKeyword) (bindings : List Binding)
  | function (head : Head) (signature : Signature)
  | conditional (position : Position) (clauses : List Clause)
  | other (head : Head) (keyword name : String)

/-- One arm of a conditional block. -/
inductive Clause
  | mk (keyword : ClauseKeyword) (condition : String) (members : List Decl)

end

/-! ### Words -/

def TypeKeyword.text : TypeKeyword → String
  | classType => "class"
  | structType => "struct"
  | enumType => "enum"
  | actorType => "actor"
  | protocolType => "protocol"
  | extensionType => "extension"

def TypeKeyword.all : List TypeKeyword :=
  [classType, structType, enumType, actorType, protocolType, extensionType]

def VariableKeyword.text : VariableKeyword → String
  | varKeyword => "var"
  | letKeyword => "let"

def VariableKeyword.all : List VariableKeyword := [varKeyword, letKeyword]

def Accessor.text : Accessor → String
  | get => "get"
  | set => "set"
  | willSet => "willSet"
  | didSet => "didSet"
  | init => "init"
  | read => "_read"
  | modify => "_modify"
  | unsafeAddress => "unsafeAddress"
  | unsafeMutableAddress => "unsafeMutableAddress"

def Accessor.all : List Accessor :=
  [get, set, willSet, didSet, init, read, modify, unsafeAddress, unsafeMutableAddress]

def Effect.text : Effect → String
  | async => "async"
  | throws => "throws"
  | rethrows => "rethrows"
  | reasync => "reasync"

def Effect.all : List Effect := [async, throws, rethrows, reasync]

def ClauseKeyword.text : ClauseKeyword → String
  | ifClause => "#if"
  | elseifClause => "#elseif"
  | elseClause => "#else"

/-- Keywords of declarations whose inside is skipped. -/
def otherKeywords : List String :=
  ["init", "deinit", "subscript", "typealias", "associatedtype", "case", "import", "operator",
    "precedencegroup", "macro"]

def declarationKeywords : List String :=
  TypeKeyword.all.map TypeKeyword.text ++ otherKeywords ++ ["var", "let", "func"]

def modifierWords : List String :=
  ["private", "fileprivate", "internal", "public", "open", "package", "static", "class", "final", "override",
    "mutating", "nonmutating", "lazy", "weak", "unowned", "dynamic", "required", "convenience", "optional",
    "indirect", "nonisolated", "isolated", "distributed", "prefix", "postfix", "infix", "consuming",
    "borrowing", "__consuming"]

/-! ### Views -/

/-- The modifier as written. -/
def Modifier.text (m : Modifier) : String :=
  match m.detail with
  | some detail => if detail.isEmpty then m.name else m.name ++ "(" ++ detail ++ ")"
  | none => m.name

/-- The attribute as written, without its arguments. -/
def Attribute.text (a : Attribute) : String := "@" ++ a.name

def Head.modifierNames (h : Head) : List String := h.modifiers.map Modifier.name

def Parameter.isVariadic (p : Parameter) : Bool := p.type.endsWith "..."

namespace Clause

def keyword : Clause → ClauseKeyword
  | mk keyword _ _ => keyword

def condition : Clause → String
  | mk _ condition _ => condition

def members : Clause → List Decl
  | mk _ _ members => members

end Clause

end TestHooks.Swift
