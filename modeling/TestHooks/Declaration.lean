import TestHooks.Position
import TestHooks.Text.Blank

/-!
# Declarations

A type declaration and its members, in the form that hooks are made from. Declarations come from Swift text or
from documents; texts of types are kept as written.
-/

namespace TestHooks

/-- The label of a parameter whose callers write no label. -/
def wildcard : String := "_"

/-- A parameter. The label is what callers write, the name is what the body reads. -/
structure Parameter where
  label : String
  name : String
  type : String
  deriving DecidableEq, Repr

namespace Parameter

/-- The parameter with its label for a name if none is given. -/
def ofLabel (label : String) (name : Option String) (type : String) : Parameter :=
  ⟨label, match name with | some n => if n.isEmpty then label else n | none => label, type⟩

def isUnlabeled (p : Parameter) : Bool := p.label == wildcard

/-- True if the text of the type begins with the word `inout` and a space, or is that word. -/
def isInout (p : Parameter) : Bool :=
  String.ofList (p.type.toList.takeWhile (· != ' ')) == "inout"

theorem name_ofLabel_none (label type : String) : (ofLabel label none type).name = label := rfl

end Parameter

structure Property where
  name : String
  type : Option String
  hasSetter : Bool
  modifiers : List String
  initializer : Option String
  position : Option Position
  deriving DecidableEq, Repr

structure Function where
  name : String
  parameters : List Parameter
  returnType : String
  modifiers : List String
  isAsync : Bool
  isThrowing : Bool
  position : Option Position
  deriving DecidableEq, Repr

/-- A member that no hook is made for, such as an initializer or a nested type. -/
structure Unsupported where
  declaration : String
  name : String
  modifiers : List String
  reason : String
  position : Option Position
  deriving DecidableEq, Repr

/-- A member of which only the name and the modifiers are known. -/
structure Unknown where
  name : String
  modifiers : List String
  position : Option Position
  deriving DecidableEq, Repr

inductive Member
  | property (p : Property)
  | function (f : Function)
  | unsupported (u : Unsupported)
  | unknown (u : Unknown)
  deriving DecidableEq, Repr

namespace Member

def name : Member → String
  | property p => p.name
  | function f => f.name
  | unsupported u => u.name
  | unknown u => u.name

def modifiers : Member → List String
  | property p => p.modifiers
  | function f => f.modifiers
  | unsupported u => u.modifiers
  | unknown u => u.modifiers

def position : Member → Option Position
  | property p => p.position
  | function f => f.position
  | unsupported u => u.position
  | unknown u => u.position

/-- The word for what the member is. -/
def kind : Member → String
  | property _ => "property"
  | function _ => "function"
  | unsupported u => u.declaration
  | unknown _ => "other"

end Member

/-- The reason that an unsupported member has if no other is given. -/
def Unsupported.plainReason : String := "unsupported declaration kind"

/-- An attribute of a type declaration. -/
structure Marker where
  name : String
  position : Option Position
  deriving DecidableEq, Repr

structure Declaration where
  name : String
  kind : String
  members : List Member
  attributes : List Marker
  position : Option Position
  deriving DecidableEq, Repr

/-- The kind that a declaration has if no other is given. -/
def Declaration.plainKind : String := "class"

end TestHooks
