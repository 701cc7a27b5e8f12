import TestHooks.Declaration
import TestHooks.Diagnostic
import TestHooks.Settings

/-!
# Generators

A generator makes extensions of an annotated declaration. Generators are registered under the names of
attributes.
-/

namespace TestHooks.Expansion

/-- The diagnostics recorded on the way, and the extensions or the diagnostic of the failure. -/
structure Outcome where
  diagnostics : List Diagnostic
  result : Except Diagnostic (List String)
  deriving Repr

/-- What a generator makes of an attribute, a declaration, the name of the extended type and the settings. -/
abbrev Generator := Marker → Declaration → String → Settings → Outcome

/-- Generators by the names of their attributes. -/
structure Registry where
  entries : List (String × Generator)

namespace Registry

def lookup (r : Registry) (name : String) : Option Generator :=
  (r.entries.find? (·.1 == name)).map Prod.snd

def isRegistered (r : Registry) (name : String) : Bool :=
  (r.lookup name).isSome

/-- The registry with a generator under a name, in place of one that it had. -/
def register (r : Registry) (name : String) (g : Generator) : Registry :=
  ⟨(name, g) :: r.entries.filter (·.1 != name)⟩

/-- The registered names in order. -/
def names (r : Registry) : List String :=
  (r.entries.map Prod.fst).mergeSort fun a b => decide (a ≤ b)

@[simp] theorem lookup_register (r : Registry) (name : String) (g : Generator) :
    (r.register name g).lookup name = some g := by
  simp [register, lookup]

end Registry

end TestHooks.Expansion
