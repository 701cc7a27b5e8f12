/-!
# Settings

What decides which members get hooks and how the generated code looks.
-/

namespace TestHooks

/-- How modifiers are compared with the words that matter. -/
inductive Matching
  | exact
  | substring
  deriving DecidableEq, Repr

def Matching.text : Matching → String
  | exact => "exact"
  | substring => "substring"

structure Settings where
  matching : Matching := .exact
  /-- Modifiers that select a member for forwarding. -/
  qualifyingModifiers : List String := ["private", "fileprivate"]
  /-- Modifiers that mark a member as belonging to the type. -/
  staticModifiers : List String := ["static", "class"]
  /-- Unlabeled arguments are written `_: name` and not `name`. -/
  wildcardCallLabels : Bool := false
  /-- A missing type is inferred from a literal initializer. -/
  inferLiteralTypes : Bool := true
  /-- The type of properties whose type is not known. -/
  placeholderType : String := "Any"
  /-- The compilation condition around generated code. -/
  buildCondition : String := "DEBUG"
  /-- Spaces for each level of generated code. -/
  indentWidth : Nat := 4
  /-- Warnings count as errors. -/
  strictMode : Bool := false
  indentWidth_pos : 0 < indentWidth := by decide
  deriving DecidableEq, Repr

/-- Spaces for one level. -/
def spaces (width : Nat) : String :=
  String.ofList (List.replicate width ' ')

def Settings.indent (s : Settings) : String :=
  spaces s.indentWidth

end TestHooks
