import TestHooks.Declaration
import TestHooks.Settings
import TestHooks.Text.Occurrence

/-!
# Classification of members

Members are sorted into four buckets, by kind and by whether they belong to the type, or skipped with a reason.
Each bucket keeps the order of declaration.
-/

namespace TestHooks

/-- What is asked about the modifiers of a member: whether they select it, and whether they make it one of the
type. -/
structure Tests where
  qualifies : List String → Bool
  isStatic : List String → Bool

/-- How modifiers select members. -/
inductive Matcher
  | exact (qualifying static : List String)
  | substring (qualifying static : String)
  deriving DecidableEq, Repr

namespace Matcher

/-- The matcher that is used if no other is asked for. -/
def standard : Matcher := exact ["private", "fileprivate"] ["static", "class"]

def standardSubstring : Matcher := substring "private" "static"

def ofSettings (s : Settings) : Matcher :=
  match s.matching with
  | .exact => exact s.qualifyingModifiers s.staticModifiers
  | .substring => standardSubstring

/-- True if a modifier selects the member. -/
def qualifies (modifiers : List String) : Matcher → Bool
  | exact qualifying _ => modifiers.any qualifying.contains
  | substring qualifying _ => modifiers.any fun m => Text.occursIn qualifying.toList m.toList

/-- True if a modifier makes the member one of the type. -/
def isStatic (modifiers : List String) : Matcher → Bool
  | exact _ static => modifiers.any static.contains
  | substring _ static => modifiers.any fun m => Text.occursIn static.toList m.toList

def tests (matcher : Matcher) : Tests := ⟨(matcher.qualifies ·), (matcher.isStatic ·)⟩

end Matcher

/-- A member that is not forwarded. It is qualifying if only its kind is in the way. -/
structure Skipped where
  member : Member
  reason : String
  qualifying : Bool
  deriving DecidableEq, Repr

structure Classification where
  instanceProperties : List Property
  instanceFunctions : List Function
  staticProperties : List Property
  staticFunctions : List Function
  skipped : List Skipped
  deriving DecidableEq, Repr

namespace Classification

def empty : Classification := ⟨[], [], [], [], []⟩

def notPrivate : String := "not declared private"

def unknownKind : String := "unknown member kind"

def skip (c : Classification) (member : Member) (reason : String) (qualifying : Bool) : Classification :=
  { c with skipped := c.skipped ++ [⟨member, reason, qualifying⟩] }

def addProperty (c : Classification) (isStatic : Bool) (p : Property) : Classification :=
  if isStatic then { c with staticProperties := c.staticProperties ++ [p] }
  else { c with instanceProperties := c.instanceProperties ++ [p] }

def addFunction (c : Classification) (isStatic : Bool) (f : Function) : Classification :=
  if isStatic then { c with staticFunctions := c.staticFunctions ++ [f] }
  else { c with instanceFunctions := c.instanceFunctions ++ [f] }

/-- Puts one member where it belongs. -/
def place (tests : Tests) (c : Classification) (m : Member) : Classification :=
  let qualifying := tests.qualifies m.modifiers
  match m with
  | .unsupported u => c.skip m u.reason qualifying
  | .property p =>
    if qualifying then c.addProperty (tests.isStatic p.modifiers) p else c.skip m notPrivate false
  | .function f =>
    if qualifying then c.addFunction (tests.isStatic f.modifiers) f else c.skip m notPrivate false
  | .unknown _ => if qualifying then c.skip m unknownKind true else c.skip m notPrivate false

/-- Classifies by any tests of modifiers. -/
def scan (tests : Tests) (ms : List Member) : Classification :=
  ms.foldl (place tests) empty

def ofMembers (matcher : Matcher) (ms : List Member) : Classification :=
  scan matcher.tests ms

/-- Classifies with a matcher that may be missing. Without one no member can be classified. -/
def ofMembers? (matcher : Option Matcher) (ms : List Member) : Option Classification :=
  match matcher, ms with
  | some matcher, ms => some (ofMembers matcher ms)
  | none, [] => some empty
  | none, _ :: _ => none

/-- The number of forwarded members. -/
def total (c : Classification) : Nat :=
  c.instanceProperties.length + c.instanceFunctions.length + c.staticProperties.length + c.staticFunctions.length

/-- The forwarded members, bucket by bucket. -/
def forwarded (c : Classification) : List Member :=
  c.instanceProperties.map .property ++ c.instanceFunctions.map .function ++
    c.staticProperties.map .property ++ c.staticFunctions.map .function

theorem length_forwarded (c : Classification) : c.forwarded.length = c.total := by
  simp [forwarded, total, Nat.add_assoc]

end Classification

end TestHooks
