import TestHooks.Declaration
import TestHooks.Validation
import TestHooks.Value.Display
import TestHooks.Value.Json

/-!
# Declarations as documents

A document describes a declaration without Swift text. Members are tables whose `kind` says what they are.
Documents say nothing about positions and attributes.
-/

namespace TestHooks.Document

open TestHooks.Value TestHooks.Checked

/-- A field that may also be given under another name. The first name wins. -/
def lookupEither (entries : List (String × Value)) (name other : String) : Option Value :=
  match lookup name entries with
  | some v => some v
  | none => lookup other entries

def typeField (entries : List (String × Value)) : Option Value :=
  lookupEither entries "type" "type_annotation"

def modifiersField (form : Form) (entries : List (String × Value)) : Checked (List String) :=
  optionalField entries "modifiers" (checkList form checkString) []

/-! ### Parameters -/

def parameterTitle : String := "ParameterSpec"

/-- A parameter without a label must have a name. -/
def checkReadable (label : String) (name : Option String) (type : String) : Checked Parameter :=
  if label = wildcard && (name.getD "").isEmpty then
    .fail (.rejected "'name' is required when 'label' is '_'")
  else .ok (.ofLabel label name type)

def checkParameter (form : Form) : Value → Checked Parameter
  | .table entries =>
    let label := optionalField entries "label" checkString wildcard
    let name := optionalField entries "name" checkOptionalString none
    let type : Checked String :=
      match typeField entries with
      | some v => (checkString v).under (.field "type")
      | none => (Checked.fail .missing).under (.field "type")
    ((fun label name type => (label, name, type)) <$> label <*> name <*> type).next
      fun (label, name, type) => checkReadable label name type
  | _ => .fail (.notTable form parameterTitle)

/-! ### Members -/

def checkProperty (form : Form) (entries : List (String × Value)) : Checked Member :=
  let type : Checked (Option String) :=
    match typeField entries with
    | some v => (checkOptionalString v).under (.field "type")
    | none => .ok none
  (fun name type hasSetter modifiers initializer =>
      .property { name, type, hasSetter, modifiers, initializer, position := none })
    <$> requiredField entries "name" checkString
    <*> type
    <*> optionalField entries "has_setter" checkBool false
    <*> modifiersField form entries
    <*> optionalField entries "initializer" checkOptionalString none

def checkFunction (form : Form) (entries : List (String × Value)) : Checked Member :=
  (fun name parameters returnType modifiers isAsync isThrowing =>
      .function { name, parameters, returnType, modifiers, isAsync, isThrowing, position := none })
    <$> requiredField entries "name" checkString
    <*> optionalField entries "parameters" (checkList form (checkParameter form)) []
    <*> optionalField entries "return_type" checkString ""
    <*> modifiersField form entries
    <*> optionalField entries "is_async" checkBool false
    <*> optionalField entries "is_throwing" checkBool false

def checkUnsupported (form : Form) (entries : List (String × Value)) : Checked Member :=
  (fun declaration name modifiers reason => .unsupported { declaration, name, modifiers, reason, position := none })
    <$> requiredField entries "declaration" checkString
    <*> optionalField entries "name" checkString ""
    <*> modifiersField form entries
    <*> optionalField entries "reason" checkString Unsupported.plainReason

/-- A member, by its tag. -/
def checkMember (form : Form) : Value → Checked Member
  | .table entries =>
    match lookup "kind" entries with
    | none => .fail .noTag
    | some (.string "property") => (checkProperty form entries).under (.field "property")
    | some (.string "function") => (checkFunction form entries).under (.field "function")
    | some (.string "unsupported") => (checkUnsupported form entries).under (.field "unsupported")
    | some tag => .fail (.unknownTag tag.display)
  | _ => .fail (.notMember form)

/-! ### Declarations -/

def title : String := "TypeDeclarationSpec"

/-- The declaration that a value describes. -/
def check (form : Form) : Value → Checked Declaration
  | .table entries =>
    (fun name kind members => { name, kind, members, attributes := [], position := none })
      <$> requiredField entries "name" checkString
      <*> optionalField entries "kind" checkString Declaration.plainKind
      <*> optionalField entries "members" (checkList form (checkMember form)) []
  | _ => .fail (.notTable form title)

/-- The declaration that a JSON text describes. -/
def read (text : String) : Checked Declaration :=
  match Json.read? text with
  | some v => check .text v
  | none => .fail .malformed

end TestHooks.Document
