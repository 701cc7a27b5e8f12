import TestHooks.Settings
import TestHooks.Text.Lines
import TestHooks.Validation

/-!
# Settings from values

Checks a table of values for settings. Settings that it does not name keep their defaults, and names that are no
setting are passed over.
-/

namespace TestHooks.Settings

open TestHooks.Value

def checkMatching : Value → Checked Matching
  | .string "exact" => .ok .exact
  | .string "substring" => .ok .substring
  | _ => .fail (.notOneOf "'exact' or 'substring'")

/-- The words between the commas of a text, without blanks around them and without empty ones. -/
def words (s : String) : List String :=
  ((Text.splitAt ',' s.toList).map fun piece => String.ofList (Text.trimWhile Text.isBlank piece)).filter (!·.isEmpty)

/-- A list of modifiers. A text stands for the words in it. -/
def checkModifiers : Value → Checked (List String)
  | .string s => .ok (words s)
  | v => checkList .values checkString v

/-- A text that is not blank, without blanks around it. -/
def checkFilled (v : Value) : Checked String :=
  (checkString v).next fun s =>
    if (Text.trim s).isEmpty then .fail (.rejected "Value must not be empty") else .ok (Text.trim s)

def checkIndent (v : Value) : Checked { n : Nat // 0 < n } :=
  (checkInt v).next fun n =>
    if h : 0 < n then .ok ⟨n.toNat, by omega⟩
    else .fail (.rejected ("indent_width must be >= 1, got " ++ toString n))

/-- The name of settings in reports. -/
def title : String := "RuntimeConfig"

/-- The settings that a table of values describes. -/
def check (entries : List (String × Value)) : Checked Settings :=
  let optional {α : Type} (name : String) (read : Value → Checked α) (absent : α) : Checked α :=
    Checked.optionalField entries name read absent
  let standard : Settings := {}
  let make matching qualifyingModifiers staticModifiers wildcardCallLabels inferLiteralTypes placeholderType
      buildCondition (indent : { n : Nat // 0 < n }) strictMode : Settings :=
    { matching, qualifyingModifiers, staticModifiers, wildcardCallLabels, inferLiteralTypes, placeholderType,
      buildCondition, indentWidth := indent.1, strictMode, indentWidth_pos := indent.2 }
  make <$> optional "modifier_matching" checkMatching standard.matching
    <*> optional "qualifying_modifiers" checkModifiers standard.qualifyingModifiers
    <*> optional "static_modifiers" checkModifiers standard.staticModifiers
    <*> optional "wildcard_call_labels" checkBool standard.wildcardCallLabels
    <*> optional "infer_literal_types" checkBool standard.inferLiteralTypes
    <*> optional "placeholder_type" checkFilled standard.placeholderType
    <*> optional "build_condition" checkFilled standard.buildCondition
    <*> optional "indent_width" checkIndent ⟨standard.indentWidth, standard.indentWidth_pos⟩
    <*> optional "strict_mode" checkBool standard.strictMode

theorem check_nil : check [] = .ok {} := rfl

end TestHooks.Settings
