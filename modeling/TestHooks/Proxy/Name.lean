import TestHooks.Swift.Lexeme

/-!
# Names in a proxy

A proxy keeps the tested instance under a name that no forwarded member has. Names are compared without the
backticks around them.
-/

namespace TestHooks.Proxy

/-- The name without backticks at either end. -/
def plainName (name : String) : String :=
  String.ofList (Text.trimWhile (· == Swift.backtick) name.toList)

/-- The names other than `name`. -/
def without (name : String) (names : List String) : List String :=
  names.filter (· != name)

theorem length_without_lt {name : String} {names : List String} (h : name ∈ names) :
    (without name names).length < names.length :=
  List.length_filter_lt_length_iff_exists.2 ⟨name, h, by simp⟩

/-- The name, with as many underscores in front as it takes to be none of those taken. A name that was tried
is shorter than those to come, so it need not be looked at again. -/
def freeName (taken : List String) (name : String) : String :=
  if name ∈ taken then freeName (without name taken) ("_" ++ name) else name
termination_by taken.length
decreasing_by exact length_without_lt ‹_›

/-- The name of the stored instance if no member has it. -/
def plainReference : String := "target"

/-- The name of the stored instance beside members of these names. -/
def reference (names : List String) : String :=
  freeName (names.map plainName) plainReference

/-- What forwarding members address. -/
structure Target where
  typeName : String
  isStatic : Bool
  reference : String
  deriving DecidableEq, Repr

namespace Target

/-- The type itself for members of the type, the stored instance for others. -/
def receiver (t : Target) : String :=
  if t.isStatic then t.typeName else t.reference

def qualifier (t : Target) : String :=
  if t.isStatic then "static " else ""

/-- The receiver in a body that declares the local names. A local name hides the stored instance. -/
def receiverFor (t : Target) (locals : List String) : String :=
  if !t.isStatic && (locals.map plainName).contains t.reference then "self." ++ t.reference else t.receiver

end Target

end TestHooks.Proxy
