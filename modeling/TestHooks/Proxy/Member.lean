import TestHooks.Classification
import TestHooks.Diagnostic
import TestHooks.Proxy.Literal
import TestHooks.Proxy.Name
import TestHooks.Text.Lines

/-!
# Forwarding members

A property of the proxy reads and writes the property it stands for, and a function calls the function it stands for
with its own arguments. Code is made of lines with a level; a level is one indentation.
-/

namespace TestHooks.Proxy

open TestHooks.Text

/-- A line of code, indented by its level. -/
structure Line where
  level : Nat
  text : String
  deriving DecidableEq, Repr

/-- The line as written. -/
def Line.write (indent : String) (l : Line) : String :=
  String.join (List.replicate l.level indent) ++ l.text

def writeLines (indent : String) (ls : List Line) : String :=
  unlines (ls.map (Line.write indent))

/-! ### Properties -/

/-- How types that are not written are found. -/
structure Typing where
  placeholder : String
  inferLiterals : Bool
  deriving DecidableEq, Repr

def Typing.ofSettings (s : Settings) : Typing :=
  ⟨s.placeholderType, s.inferLiteralTypes⟩

/-- The type that is written or inferred. -/
def Typing.known? (t : Typing) (p : Property) : Option String :=
  match p.type.filter (!·.isEmpty) with
  | some type => some type
  | none => if t.inferLiterals then literalType? p.initializer else none

def Typing.resolve (t : Typing) (p : Property) : String :=
  (t.known? p).getD t.placeholder

/-- The warning about a property that gets the placeholder. -/
def Typing.warning? (t : Typing) (p : Property) : Option Diagnostic :=
  match t.known? p with
  | some _ => none
  | none =>
    some ⟨.warning, "Property '" ++ p.name ++ "' has no type annotation; forwarding it as '" ++ t.placeholder ++ "'",
      p.position⟩

def propertyLines (target : Target) (typing : Typing) (p : Property) : List Line :=
  let path := target.receiver ++ "." ++ p.name
  let setter : List Line :=
    if p.hasSetter then [⟨1, "set \x7b"⟩, ⟨2, path ++ " = newValue"⟩, ⟨1, "\x7d"⟩] else []
  [⟨0, target.qualifier ++ "var " ++ p.name ++ ": " ++ typing.resolve p ++ " \x7b"⟩,
    ⟨1, "get \x7b"⟩, ⟨2, "return " ++ path⟩, ⟨1, "\x7d"⟩] ++ setter ++ [⟨0, "\x7d"⟩]

def writeProperties (target : Target) (typing : Typing) (indent : String) (ps : List Property) : String :=
  writeLines indent (ps.flatMap (propertyLines target typing))

/-! ### Functions -/

/-- Names for the parameters from the one at `index` on. An unreadable name is replaced by a free one. -/
def localNamesFrom (index : Nat) (taken : List String) : List Parameter → List String
  | [] => []
  | p :: ps =>
    if p.name = wildcard then
      let name := freeName taken ("arg" ++ toString index)
      name :: localNamesFrom (index + 1) (name :: taken) ps
    else p.name :: localNamesFrom (index + 1) taken ps

/-- The names under which the forwarding function reads its parameters. -/
def localNames (f : Function) : List String :=
  localNamesFrom 0 (f.parameters.map Parameter.name) f.parameters

/-- A parameter as declared; the name is written if it differs from the label. -/
def parameterDeclaration (p : Parameter) (name : String) : String :=
  if name = p.label then p.label ++ ": " ++ p.type else p.label ++ " " ++ name ++ ": " ++ p.type

/-- A parameter as passed on. -/
def argument (wildcardLabels : Bool) (p : Parameter) (name : String) : String :=
  let value := if p.isInout then "&" ++ name else name
  if p.isUnlabeled && !wildcardLabels then value else p.label ++ ": " ++ value

def signature (target : Target) (f : Function) : String :=
  let parameters := joinTexts ", " (f.parameters.zipWith parameterDeclaration (localNames f))
  let mutating := if !target.isStatic && f.modifiers.contains "mutating" then "mutating " else ""
  let effects := (if f.isAsync then " async" else "") ++ (if f.isThrowing then " throws" else "")
  let returns := if f.returnType.isEmpty then "" else " -> " ++ f.returnType
  target.qualifier ++ mutating ++ "func " ++ f.name ++ "(" ++ parameters ++ ")" ++ effects ++ returns

def call (target : Target) (wildcardLabels : Bool) (f : Function) : String :=
  let arguments := joinTexts ", " (f.parameters.zipWith (argument wildcardLabels) (localNames f))
  let effects := (if f.isThrowing then "try " else "") ++ (if f.isAsync then "await " else "")
  effects ++ target.receiverFor (localNames f) ++ "." ++ f.name ++ "(" ++ arguments ++ ")"

def functionLines (target : Target) (wildcardLabels : Bool) (f : Function) : List Line :=
  [⟨0, signature target f ++ " \x7b"⟩, ⟨1, "return " ++ call target wildcardLabels f⟩, ⟨0, "\x7d"⟩]

def writeFunctions (target : Target) (wildcardLabels : Bool) (indent : String) (fs : List Function) : String :=
  writeLines indent (fs.flatMap (functionLines target wildcardLabels))

end TestHooks.Proxy
