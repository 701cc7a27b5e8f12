import TestHooks.Classification
import TestHooks.Expansion.Generator
import TestHooks.Proxy.Extension

/-!
# The generator of test hooks

Forwards the selected members of a class, structure or enumeration through a proxy. Every member that is not
forwarded is reported.
-/

namespace TestHooks.Expansion

open TestHooks.Proxy

/-- The name of the attribute that asks for test hooks. -/
def testableName : String := "Testable"

def supportedKinds : List String := ["class", "struct", "enum"]

/-- The report on a member that is not forwarded. -/
def skippedNotice (s : Skipped) : Diagnostic :=
  let label := if s.member.name.isEmpty then s.member.kind else s.member.name
  ⟨if s.qualifying then .warning else .note, "'" ++ label ++ "' is not forwarded: " ++ s.reason, s.member.position⟩

/-- The name of the stored instance beside the forwarded members. -/
def referenceFor (c : Classification) : String :=
  reference (c.forwarded.map Member.name)

/-- The report on the first forwarded member that has the name of the stored instance. -/
def collisionNotice? (c : Classification) : Option Diagnostic :=
  (c.forwarded.find? fun m => plainName m.name == plainReference).map fun m =>
    ⟨.note, "'" ++ m.name ++ "' collides with the proxy's stored '" ++ plainReference ++
      "'; the proxy stores the instance as '" ++ referenceFor c ++ "'", m.position⟩

/-- Everything to report before the extension is put together. -/
def notices (typing : Typing) (c : Classification) : List Diagnostic :=
  c.skipped.map skippedNotice ++ (collisionNotice? c).toList ++
    c.instanceProperties.filterMap typing.warning? ++ c.staticProperties.filterMap typing.warning?

def fragments (settings : Settings) (typeName : String) (c : Classification) : Fragments :=
  let instanceTarget : Target := ⟨typeName, false, referenceFor c⟩
  let staticTarget : Target := ⟨typeName, true, referenceFor c⟩
  let typing := Typing.ofSettings settings
  { instanceProperties := writeProperties instanceTarget typing settings.indent c.instanceProperties
    instanceFunctions := writeFunctions instanceTarget settings.wildcardCallLabels settings.indent c.instanceFunctions
    staticProperties := writeProperties staticTarget typing settings.indent c.staticProperties
    staticFunctions := writeFunctions staticTarget settings.wildcardCallLabels settings.indent c.staticFunctions }

def plan (settings : Settings) (typeName : String) (c : Classification) : Plan where
  typeName := typeName
  reference := referenceFor c
  condition := settings.buildCondition
  indent := settings.indent

/-- The failure on a declaration of a kind that gets no hooks. -/
def unsupportedKind (marker : Marker) (d : Declaration) : Diagnostic :=
  ⟨.error, "@" ++ marker.name ++ " can only be applied to a class, struct or enum, not '" ++ d.kind ++ "'",
    marker.position⟩

def testable : Generator := fun marker d typeName settings =>
  if supportedKinds.contains d.kind then
    let c := Classification.ofMembers (.ofSettings settings) d.members
    let journal := (Journal.empty settings.strictMode).recordAll (notices (.ofSettings settings) c)
    match journal.firstError? with
    | some first => ⟨journal.entries, .error first⟩
    | none =>
      match assemble (plan settings typeName c) (fragments settings typeName c) marker.position with
      | .ok code => ⟨journal.entries, .ok [code]⟩
      | .error fault => ⟨(journal.append fault).entries, .error fault⟩
  else
    let fault := unsupportedKind marker d
    ⟨[fault], .error fault⟩

/-- The registry that holds the generator of test hooks only. -/
def Registry.standard : Registry := ⟨[(testableName, testable)]⟩

end TestHooks.Expansion
