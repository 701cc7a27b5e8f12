import TestHooks.Expansion.File

/-!
# Rosters

A roster is a registry in which a name may also be reserved for a generator that does nothing yet. Asking such a
generator for anything is a mistake.
-/

namespace TestHooks.Expansion

/-! ### Simple generators -/

/-- Reports what it is given, and makes an empty extension and a comment. -/
def echo (name : String) : Generator := fun marker d typeName settings =>
  let message := name ++ " on " ++ d.kind ++ " " ++ typeName ++ " with " ++ toString d.members.length ++ " members"
  let journal := (Journal.empty settings.strictMode).record ⟨.note, message, marker.position⟩
  ⟨journal.entries, .ok ["extension " ++ typeName ++ ": " ++ name ++ " \x7b\x7d", "// " ++ name]⟩

/-- Makes nothing. -/
def silent : Generator := fun _ _ _ _ => ⟨[], .ok []⟩

/-- Fails without recording why. -/
def failing (name : String) : Generator := fun marker _ _ _ =>
  ⟨[], .error ⟨.error, name ++ " failed", marker.position⟩⟩

/-- Fails with a warning that it records. -/
def failingWithWarning (name : String) : Generator := fun marker _ _ settings =>
  let warning : Diagnostic := ⟨.warning, name ++ " warned", marker.position⟩
  ⟨((Journal.empty settings.strictMode).record warning).entries, .error (warning.promote settings.strictMode)⟩

/-! ### Rosters -/

structure Roster where
  registry : Registry
  /-- Names whose generators do nothing yet. -/
  reserved : List String
  /-- Names under which the generator of test hooks is registered. -/
  testables : List String

namespace Roster

def standard : Roster := ⟨.standard, [], [testableName]⟩

def register (r : Roster) (name : String) (g : Generator) : Roster :=
  ⟨r.registry.register name g, r.reserved.filter (· != name), r.testables.filter (· != name)⟩

/-- The roster with a name reserved. -/
def reserve (r : Roster) (name : String) : Roster :=
  { r.register name silent with reserved := name :: r.reserved }

/-- The roster with the generator of test hooks under one more name. -/
def registerTestable (r : Roster) (name : String) : Roster :=
  { r.register name testable with testables := name :: r.testables }

def isTestable (r : Roster) (name : String) : Bool :=
  r.testables.contains name

/-- True if a generator of the file does nothing yet. -/
def meetsReserved (r : Roster) (code : String) : Bool :=
  match Swift.parse code with
  | .error _ => false
  | .ok decls => !(annotatedAmong r.reserved.contains none decls).isEmpty

/-- The expansion of a file that meets no reserved name. -/
def expandFile? (r : Roster) (settings : Settings) (code : String) : Option FileExpansion :=
  if r.meetsReserved code then none else some (expandFile r.registry settings code)

end Roster

end TestHooks.Expansion
