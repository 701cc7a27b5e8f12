import TestHooks.CommandLine.Outcome
import TestHooks.Declaration.Document
import TestHooks.Expansion.File

/-!
# The command that shows how members are classified

One table for each annotated type, with a row for each member.
-/

namespace TestHooks.CommandLine

open TestHooks.Expansion TestHooks.Log

/-! ### Tables -/

def Row.forwarded (bucket : String) (m : Member) : Row :=
  ⟨m.name, m.kind, Text.joinTexts " " m.modifiers, bucket, ""⟩

def Row.skipped (s : Skipped) : Row :=
  let name := if s.member.name.isEmpty then "-" else s.member.name
  ⟨name, s.member.kind, Text.joinTexts " " s.member.modifiers, "-", s.reason⟩

/-- The rows of a classification: bucket by bucket, and the skipped members last. -/
def rowsOf (c : Classification) : List Row :=
  c.instanceProperties.map (fun p => .forwarded "instance property" (.property p)) ++
    c.instanceFunctions.map (fun f => .forwarded "instance function" (.function f)) ++
    c.staticProperties.map (fun p => .forwarded "static property" (.property p)) ++
    c.staticFunctions.map (fun f => .forwarded "static function" (.function f)) ++
    c.skipped.map .skipped

def tableOf (settings : Settings) (d : Declaration) : Table :=
  ⟨d.kind ++ " " ++ d.name, rowsOf (.ofMembers (.ofSettings settings) d.members)⟩

theorem length_rowsOf (c : Classification) : (rowsOf c).length = c.total + c.skipped.length := by
  simp [rowsOf, Classification.total, Nat.add_assoc]

/-! ### The command -/

def unreadable (path : FilePath) (reason : String) : Message :=
  .error ("Could not read " ++ path.text ++ ": " ++ Markup.escape reason)

/-- The annotated declarations of a text, or why it cannot be read. -/
def declarationsIn (path : FilePath) (text : String) : Except String (List Declaration) :=
  if isDocument path then
    match Document.read text with
    | .ok d => .ok [d]
    | .error complaints => .error (Complaint.summary Document.title complaints)
  else
    match Swift.parse text with
    | .ok decls => .ok ((annotatedAmong Registry.standard.isRegistered none decls).map AnnotatedType.declaration)
    | .error e => .error e.message

def inspectWith (path : FilePath) (settings : Settings) (text : String) : Outcome :=
  match declarationsIn path text with
  | .ok [] => { exitCode := 0, log := [nothingFound path] }
  | .ok ds => { exitCode := 0, tables := ds.map (tableOf settings) }
  | .error reason => .failed 1 [unreadable path reason]

/-- Shows how the members of the types in a file are classified. -/
def inspect (path : FilePath) (overrides : List (String × Value)) (inputs : Inputs) :
    Except Settings.DocumentFault Outcome :=
  withInput path inputs overrides none (inspectWith path)

end TestHooks.CommandLine
